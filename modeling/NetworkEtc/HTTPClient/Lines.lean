-- SUMMARY: What the parser does with whole lines: the status line, header lines, and where it stops.
import Mathlib.Algebra.BigOperators.Group.List.Basic
import NetworkEtc.HTTPClient.IMF

/-!
# Lines

A header line is a name, a colon, blanks and a value.
-/

namespace HTTPClient

open Library Library.Printf

/-- The entries of a `StrStrMMap`, in its order. -/
abbrev FieldList : Type := List (List UInt8 × List UInt8)

/-- The name and the value of an entry. -/
def KeyValue.pair (keyval : KeyValue) (data : List UInt8) : List UInt8 × List UInt8 :=
  ((data.drop keyval.keyStart).take keyval.keyLength,
    (data.drop keyval.valueStart).take keyval.valueLength)

/-- What the header table holds. -/
def CIMFHeader.pairs (header : CIMFHeader) (memory : List UInt8) : FieldList :=
  (List.range header.miHeaderSize).map fun i =>
    (header.mpoHeaders i).pair (memory.drop (header.mpcData.getD 0))

/-- The text begins with a byte that is not passed over as a blank. -/
def IsVisible (text : List UInt8) : Prop := ∃ c, text.head? = some c ∧ isBlank c = false

structure Line where
  name : List UInt8
  gap : List UInt8
  value : List UInt8
  deriving DecidableEq

namespace Line

def text (line : Line) : List UInt8 :=
  line.name ++ ascii ':' :: (line.gap ++ (line.value ++ [cr, lf]))

/-- The line, once it has been parsed. -/
def parsed (line : Line) : List UInt8 := line.name ++ 0 :: (line.gap ++ (line.value ++ [0, lf]))

/-- The entry of a line that begins at `start`. -/
def entry (line : Line) (start : Nat) : KeyValue :=
  ⟨start, line.name.length, start + line.name.length + 1 + line.gap.length, line.value.length⟩

/-- Name and value. -/
def field (line : Line) : List UInt8 × List UInt8 := (line.name, line.value)

structure Good (line : Line) : Prop where
  name_ne_nil : line.name ≠ []
  name : ∀ c ∈ line.name, c ≠ ascii ':' ∧ c ≠ cr ∧ c ≠ lf ∧ c ≠ 0
  gap : ∀ c ∈ line.gap, isBlank c = true ∧ c ≠ cr ∧ c ≠ lf ∧ c ≠ 0
  value : ∀ c ∈ line.value, c ≠ cr ∧ c ≠ lf ∧ c ≠ 0
  visible : IsVisible line.value

end Line

theorem set_at {l m : List UInt8} {n : Nat} {c e : UInt8} (h : n = l.length) :
    (l ++ c :: m).set n e = l ++ e :: m := by
  subst h
  simp

theorem getD_at {l m : List UInt8} {n : Nat} {c : UInt8} (h : n = l.length) :
    (l ++ c :: m).getD n 0 = c := by
  subst h
  simp [List.getD_eq_getElem?_getD]

theorem length_le_length_flatMap {α : Type} {f : α → List UInt8} (hf : ∀ x, f x ≠ [])
    (l : List α) : l.length ≤ (l.flatMap f).length := by
  rw [List.length_flatMap, ← List.length_map (f := fun x => (f x).length)]
  apply List.length_le_sum_of_one_le
  intro n hn
  obtain ⟨x, -, rfl⟩ := List.mem_map.mp hn
  exact List.length_pos_of_ne_nil (hf x)

section

variable {text rest : List UInt8} {len : Int} {p : Nat}

/-- A text begins where the blanks in front of it end. -/
theorem skipWhitespace_text (pre gap : List UInt8) (hgap : ∀ c ∈ gap, isBlank c = true ∧ c ≠ 0)
    (hvisible : IsVisible text) (hzero : (0 : UInt8) ∉ text) (hp : p = pre.length)
    (hlen : (gap.length : Int) < len) :
    skipWhitespace (pre ++ (gap ++ (text ++ rest))) (some p) len = some (p + gap.length) := by
  obtain ⟨c, hc, hvisible⟩ := hvisible
  have htext := List.eq_cons_of_mem_head? hc
  rw [htext] at hzero ⊢
  apply scanFrom_append (c := c) (b := text.tail ++ rest)
  · rw [hp, List.drop_left]
    rfl
  · exact fun x hx => ⟨(hgap x hx).2, fun _ _ => (hgap x hx).1⟩
  · exact fun heq => hzero (heq ▸ List.mem_cons_self)
  · exact hvisible
  · omega
  · exact hlen

/-- Where no line end is, none is passed over. -/
theorem skipCrlf_here {memory : List UInt8}
    (h : memory.getD p 0 ≠ 0 ∧ memory.getD p 0 ≠ cr ∧ memory.getD p 0 ≠ lf) (hlen : 2 ≤ len) :
    skipCrlf memory (some p) len = some p :=
  scanFrom_eq_some_iff.mpr ⟨hlen, le_rfl, by omega, h.1, decide_eq_false (not_or.mpr h.2),
    fun _ hj hlt => absurd hj (Nat.not_le.mpr hlt)⟩

/-- A text ends at the next blank. -/
theorem seekWhitespace_text (pre : List UInt8) (htext : ∀ c ∈ text, c ≠ ascii ' ' ∧ c ≠ 0)
    (hp : p = pre.length) (hlen : (text.length : Int) < len) :
    seekWhitespace (pre ++ (text ++ ascii ' ' :: rest)) (some p) len = some (p + text.length) := by
  apply scanFrom_append (b := rest)
  · rw [hp, List.drop_left]
  · intro x hx
    exact ⟨(htext x hx).2, fun _ _ => by simpa using (htext x hx).1⟩
  · decide
  · simp
  · omega
  · exact hlen

/-- A text ends where the line ends. -/
theorem seekCrlf_text (pre : List UInt8) (htext : ∀ c ∈ text, c ≠ cr ∧ c ≠ lf ∧ c ≠ 0)
    (hp : p = pre.length) (hleast : 2 ≤ len) (hlen : (text.length : Int) < len) :
    seekCrlf (pre ++ (text ++ cr :: rest)) (some p) len = some (p + text.length) := by
  apply scanFrom_append (b := rest)
  · rw [hp, List.drop_left]
  · intro x hx
    refine ⟨(htext x hx).2.2, fun y hy => ?_⟩
    rcases List.mem_append.mp hy with hy | hy
    · simpa using ⟨(htext x hx).1, (htext y hy).2.1⟩
    · rw [List.mem_singleton.mp hy]
      simpa using ⟨(htext x hx).1, (by decide : cr ≠ lf)⟩
  · decide
  · simp
  · exact hleast
  · exact hlen

end

section

variable {line : Line} {lines : List Line} {pre rest : List UInt8} {fresh : Fresh}
  {header : CIMFHeader} {buf nkv fuel start : Nat} {len : Int} {memory : List UInt8} {p : Nat}
  {mpoHeaders : Nat → KeyValue}

namespace Line

theorem length_parsed (line : Line) : line.parsed.length = line.text.length := by
  simp [parsed, text]

theorem length_text (line : Line) :
    line.text.length = line.name.length + line.gap.length + line.value.length + 3 := by
  simp only [text, List.length_append, List.length_cons, List.length_nil]
  omega

/-- What a line begins with. -/
theorem Good.exists_first (h : line.Good) : ∃ c name, line.name = c :: name ∧
    c ≠ 0 ∧ c ≠ cr ∧ c ≠ lf := by
  obtain ⟨c, name, hname⟩ := List.exists_cons_of_ne_nil h.name_ne_nil
  obtain ⟨-, hcr, hlf, hzero⟩ := h.name c (hname ▸ List.mem_cons_self)
  exact ⟨c, name, hname, hzero, hcr, hlf⟩

theorem Good.value_ne_nil (h : line.Good) : line.value ≠ [] := by
  obtain ⟨c, hc, -⟩ := h.visible
  exact List.ne_nil_of_mem (List.mem_of_head? hc)

end Line

/-- What a round of the loop of `Parse` makes of a line that begins at `key`: the entry, and where the
next line begins. -/
def nextLine (memory : List UInt8) (buf : Nat) (len : Int) (key : Nat) :
    List UInt8 × Option (KeyValue × Nat) :=
  let remlen (p : Nat) : Int := len - (p - buf)
  match seekChar memory (some key) (remlen key) (ascii ':') with
  | none => (memory, none)
  | some p =>
    let memory := memory.set p 0
    match skipWhitespace memory (some (p + 1)) (remlen (p + 1)) with
    | none => (memory, none)
    | some value =>
      match seekCrlf memory (some value) (remlen value) with
      | none => (memory, none)
      | some q => (memory.set q 0, some (⟨key - buf, p - key, value - buf, q - value⟩, q + 2))

theorem nextLine_eq_some {key q : Nat} {keyvalue : KeyValue} :
    (nextLine memory buf len key).2 = some (keyvalue, q) ↔ ∃ p value r,
      seekChar memory (some key) (len - (key - buf)) (ascii ':') = some p ∧
      skipWhitespace (memory.set p 0) (some (p + 1)) (len - ((p + 1 : Nat) - buf)) = some value ∧
      seekCrlf (memory.set p 0) (some value) (len - (value - buf)) = some r ∧
      keyvalue = ⟨key - buf, p - key, value - buf, r - value⟩ ∧ q = r + 2 := by
  unfold nextLine
  simp only
  constructor
  · intro h
    split at h
    · cases h
    · next p hcolon =>
      split at h
      · cases h
      · next value hskip =>
        split at h
        · cases h
        · next r hcrlf =>
          cases h
          exact ⟨p, value, r, hcolon, hskip, hcrlf, rfl, rfl⟩
  · rintro ⟨p, value, r, hcolon, hskip, hcrlf, rfl, rfl⟩
    simp only [hcolon]
    rw [hskip]
    simp only
    rw [hcrlf]

/-- Nothing in front of the line is touched. -/
theorem nextLine_take (memory : List UInt8) (buf : Nat) (len : Int) (key : Nat) :
    (nextLine memory buf len key).1.take key = memory.take key := by
  unfold nextLine
  simp only
  cases hcolon : seekChar memory (some key) (len - (key - buf)) (ascii ':') with
  | none => rfl
  | some p =>
    obtain ⟨-, hkey, -, -, -, -⟩ := scanFrom_eq_some_iff.mp hcolon
    simp only
    cases hskip : skipWhitespace (memory.set p 0) (some (p + 1)) (len - ((p + 1 : Nat) - buf)) with
    | none => exact List.take_set_of_le hkey
    | some value =>
      obtain ⟨-, hvalue, -, -, -, -⟩ := scanFrom_eq_some_iff.mp hskip
      simp only
      cases hcrlf : seekCrlf (memory.set p 0) (some value) (len - (value - buf)) with
      | none => exact List.take_set_of_le hkey
      | some r =>
        obtain ⟨-, hr, -, -, -, -⟩ := scanFrom_eq_some_iff.mp hcrlf
        simp only
        rw [List.take_set_of_le (by omega), List.take_set_of_le hkey]

/-- The next line begins behind it. -/
theorem nextLine_lt {key q : Nat} {keyvalue : KeyValue}
    (h : (nextLine memory buf len key).2 = some (keyvalue, q)) : key < q := by
  obtain ⟨p, value, r, hcolon, hskip, hcrlf, -, rfl⟩ := nextLine_eq_some.mp h
  obtain ⟨-, hkey, -, -, -, -⟩ := scanFrom_eq_some_iff.mp hcolon
  obtain ⟨-, hvalue, -, -, -, -⟩ := scanFrom_eq_some_iff.mp hskip
  obtain ⟨-, hr, -, -, -, -⟩ := scanFrom_eq_some_iff.mp hcrlf
  omega

/-- A line is read in other memory too, if the bytes it is read from are the same, and a line feed
stands behind them where anything did. -/
theorem nextLine_agree {memory' : List UInt8} {key n q : Nat} {keyvalue : KeyValue}
    (hagree : ∀ j, key ≤ j → j < n → memory'.getD j 0 = memory.getD j 0)
    (hn : (buf : Int) + len ≤ n) (hlast : memory'.getD n 0 = lf)
    (h : (nextLine memory buf len key).2 = some (keyvalue, q)) :
    (nextLine memory' buf len key).2 = some (keyvalue, q) := by
  obtain ⟨p, value, r, hcolon, hskip, hcrlf, hkeyvalue, hq⟩ := nextLine_eq_some.mp h
  obtain ⟨-, hkey, -, -, -, -⟩ := scanFrom_eq_some_iff.mp hcolon
  obtain ⟨-, hvalue, -, -, -, -⟩ := scanFrom_eq_some_iff.mp hskip
  obtain ⟨-, hr, hrlen, -, -, -⟩ := scanFrom_eq_some_iff.mp hcrlf
  have hset : ∀ j, key ≤ j → j < n → (memory'.set p 0).getD j 0 = (memory.set p 0).getD j 0 := by
    intro j hj hjn
    simp only [List.getD_eq_getElem?_getD, List.getElem?_set]
    have hj' := hagree j hj hjn
    simp only [List.getD_eq_getElem?_getD] at hj'
    split
    · split
      · split
        · rfl
        · rfl
      · split
        · rfl
        · rfl
    · exact hj'
  refine nextLine_eq_some.mpr ⟨p, value, r, ?_, ?_, ?_, hkeyvalue, hq⟩
  · exact scanFrom_agree hagree (by omega) (fun _ hc => hc) hcolon
  · exact scanFrom_agree (fun j hj => hset j (by omega)) (by omega) (fun _ hc => hc) hskip
  · refine scanFrom_agree (fun j hj => hset j (by omega)) (by omega) (fun c _ => ?_) hcrlf
    have hlf : (memory'.set p 0).getD n 0 = lf := by
      rw [List.getD_eq_getElem?_getD, List.getElem?_set_ne (by omega),
        ← List.getD_eq_getElem?_getD, hlast]
    rw [hlf]
    exact decide_eq_false fun h => h.2 rfl

/-- A line is read. Its line feed need not be there. -/
theorem nextLine_line (hline : line.Good) (hbuf : buf ≤ pre.length)
    (hlen : (pre.length : Int) + line.text.length ≤ buf + len + 1) :
    nextLine (pre ++ (line.name ++ ascii ':' :: (line.gap ++ (line.value ++ cr :: rest)))) buf len
        pre.length =
      (pre ++ (line.name ++ 0 :: (line.gap ++ (line.value ++ 0 :: rest))),
        some (line.entry (pre.length - buf), pre.length + line.text.length)) := by
  have hvalue_pos := List.length_pos_of_ne_nil hline.value_ne_nil
  have htext := line.length_text
  obtain ⟨hne, hname, hgap, hvalue, c, hc, hvisible⟩ := hline
  obtain ⟨name, gap, value⟩ := line
  simp only at hne hname hgap hvalue hc hvalue_pos htext ⊢
  have hmemory₁ : (pre ++ (name ++ ascii ':' :: (gap ++ (value ++ cr :: rest)))).set
      (pre.length + name.length) 0 = pre ++ (name ++ 0 :: (gap ++ (value ++ cr :: rest))) := by
    rw [← List.append_assoc, set_at (List.length_append ..).symm, List.append_assoc]
  have hmemory₂ : (pre ++ (name ++ 0 :: (gap ++ (value ++ cr :: rest)))).set
      (pre.length + name.length + 1 + gap.length + value.length) 0 =
        pre ++ (name ++ 0 :: (gap ++ (value ++ 0 :: rest))) := by
    have hsplit : ∀ c : UInt8, pre ++ (name ++ 0 :: (gap ++ (value ++ c :: rest))) =
        (pre ++ name ++ 0 :: gap ++ value) ++ c :: rest := by simp
    rw [hsplit, set_at, hsplit]
    simp only [List.length_append, List.length_cons]
    omega
  have hcolon : seekChar (pre ++ (name ++ ascii ':' :: (gap ++ (value ++ cr :: rest))))
      (some pre.length) (len - (pre.length - buf)) (ascii ':') =
        some (pre.length + name.length) := by
    apply scanFrom_append (a := name) (c := ascii ':') (b := gap ++ (value ++ cr :: rest))
    · rw [List.drop_left]
    · intro x hx
      exact ⟨(hname x hx).2.2.2, fun y _ => by simpa using (hname x hx).1⟩
    · decide
    · simp
    · omega
    · omega
  have hsplit : ∀ m : List UInt8, pre ++ (name ++ 0 :: m) = (pre ++ name ++ [0]) ++ m := by simp
  have hskip : skipWhitespace (pre ++ (name ++ 0 :: (gap ++ (value ++ cr :: rest))))
      (some (pre.length + name.length + 1)) (len - ((pre.length + name.length + 1 : Nat) - buf)) =
        some (pre.length + name.length + 1 + gap.length) := by
    rw [hsplit]
    apply skipWhitespace_text
    · exact fun x hx => ⟨(hgap x hx).1, (hgap x hx).2.2.2⟩
    · exact ⟨c, hc, hvisible⟩
    · exact fun h => (hvalue 0 h).2.2 rfl
    · simp [Nat.add_assoc]
    · omega
  have hcrlf : seekCrlf (pre ++ (name ++ 0 :: (gap ++ (value ++ cr :: rest))))
      (some (pre.length + name.length + 1 + gap.length))
      (len - ((pre.length + name.length + 1 + gap.length : Nat) - buf)) =
        some (pre.length + name.length + 1 + gap.length + value.length) := by
    rw [hsplit, ← List.append_assoc]
    apply seekCrlf_text _ hvalue
    · simp only [List.length_append, List.length_singleton]
    · omega
    · omega
  have hentry : (Line.mk name gap value).entry (pre.length - buf) =
      ⟨pre.length - buf, pre.length + name.length - pre.length,
        pre.length + name.length + 1 + gap.length - buf,
        pre.length + name.length + 1 + gap.length + value.length -
          (pre.length + name.length + 1 + gap.length)⟩ := by
    simp only [Line.entry, Nat.add_sub_cancel_left, KeyValue.mk.injEq, and_true, true_and]
    omega
  have hnext : pre.length + (Line.mk name gap value).text.length =
      pre.length + name.length + 1 + gap.length + value.length + 2 := by omega
  rw [hentry, hnext, nextLine]
  simp only [hcolon, hmemory₁]
  rw [hskip]
  simp only
  rw [hcrlf]
  simp only [hmemory₂]

open CIMFHeader in
/-- The loop, by what its next round makes of the line. -/
theorem headerLoop_next (fresh : Fresh) (fuel : Nat) (header : CIMFHeader) (nkv : Nat)
    (hlt : (p : Int) < buf + len) (hcrlf : ¬ (memory.getD p 0 = cr ∧ memory.getD (p + 1) 0 = lf)) :
    headerLoop fresh buf len (fuel + 1) header memory p nkv =
      match nextLine memory buf len p with
      | (memory, none) => (header, memory, p, nkv)
      | (memory, some (keyvalue, p)) =>
        headerLoop fresh buf len fuel
          { header.getHeaders fresh nkv with
            mpoHeaders := Function.update (header.getHeaders fresh nkv).mpoHeaders nkv keyvalue }
          memory p (nkv + 1) := by
  rw [headerLoop, nextLine]
  simp only
  rw [if_neg (Int.not_le.mpr hlt), if_neg hcrlf]
  cases seekChar memory (some p) (len - (p - buf)) (ascii ':') with
  | none => rfl
  | some q =>
    simp only
    cases skipWhitespace (memory.set q 0) (some (q + 1)) (len - ((q + 1 : Nat) - buf)) with
    | none => rfl
    | some value =>
      simp only
      cases seekCrlf (memory.set q 0) (some value) (len - (value - buf)) with
      | none => rfl
      | some r => rfl

open CIMFHeader in
/-- A line is recorded, and the loop goes on behind it. Its line feed need not be there. -/
theorem headerLoop_step (hline : line.Good) (hbuf : buf ≤ pre.length)
    (hroom : nkv < header.miCapHeaderSize)
    (hlen : (pre.length : Int) + line.text.length ≤ buf + len + 1) :
    headerLoop fresh buf len (fuel + 1) header
        (pre ++ (line.name ++ ascii ':' :: (line.gap ++ (line.value ++ cr :: rest)))) pre.length nkv =
      headerLoop fresh buf len fuel
        { header with
          mpoHeaders := Function.update header.mpoHeaders nkv (line.entry (pre.length - buf)) }
        (pre ++ (line.name ++ 0 :: (line.gap ++ (line.value ++ 0 :: rest))))
        (pre.length + line.text.length) (nkv + 1) := by
  obtain ⟨c, name, hname, hc⟩ := hline.exists_first
  have htext := line.length_text
  have hvalue := List.length_pos_of_ne_nil hline.value_ne_nil
  have hhead : (pre ++ (line.name ++ ascii ':' :: (line.gap ++ (line.value ++ cr :: rest)))).getD
      pre.length 0 ≠ cr := by
    rw [hname, List.cons_append, getD_at rfl]
    exact hc.2.1
  rw [headerLoop_next fresh fuel header nkv (by omega) fun h => hhead h.1,
    nextLine_line hline hbuf hlen]
  simp only [getHeaders, if_pos hroom]

/-- The header table with the entries of some lines, the first of which begins at `start`. -/
def enter : (Nat → KeyValue) → Nat → Nat → List Line → Nat → KeyValue
  | mpoHeaders, _, _, [] => mpoHeaders
  | mpoHeaders, nkv, start, line :: lines =>
    enter (Function.update mpoHeaders nkv (line.entry start)) (nkv + 1) (start + line.text.length)
      lines

theorem enter_append (lines' : List Line) :
    enter mpoHeaders nkv start (lines ++ lines') =
      enter (enter mpoHeaders nkv start lines) (nkv + lines.length)
        (start + (lines.flatMap Line.text).length) lines' := by
  induction lines generalizing mpoHeaders nkv start with
  | nil => rfl
  | cons line lines ih =>
    simp only [List.cons_append, enter, ih, List.length_cons, List.flatMap_cons, List.length_append]
    congr 1
    · omega
    · omega

theorem enter_of_lt {i : Nat} (hi : i < nkv) (mpoHeaders : Nat → KeyValue) (start : Nat)
    (lines : List Line) : enter mpoHeaders nkv start lines i = mpoHeaders i := by
  induction lines generalizing mpoHeaders nkv start with
  | nil => rfl
  | cons line lines ih =>
    rw [enter, ih (Nat.lt_succ_of_lt hi) _ _, Function.update_of_ne hi.ne]

theorem length_parsed (lines : List Line) :
    (lines.flatMap Line.parsed).length = (lines.flatMap Line.text).length := by
  rw [List.length_flatMap, List.length_flatMap]
  congr 1
  exact List.map_congr_left fun line _ => line.length_parsed

/-- All of the lines are recorded. -/
theorem headerLoop_lines (hlines : ∀ line ∈ lines, line.Good) (hbuf : buf ≤ pre.length)
    (hroom : nkv + lines.length ≤ header.miCapHeaderSize)
    (hlen : (pre.length : Int) + (lines.flatMap Line.text).length ≤ buf + len) :
    CIMFHeader.headerLoop fresh buf len (fuel + lines.length) header
        (pre ++ (lines.flatMap Line.text ++ rest)) pre.length nkv =
      CIMFHeader.headerLoop fresh buf len fuel
        { header with mpoHeaders := enter header.mpoHeaders nkv (pre.length - buf) lines }
        (pre ++ (lines.flatMap Line.parsed ++ rest))
        (pre.length + (lines.flatMap Line.text).length) (nkv + lines.length) := by
  induction lines generalizing pre header nkv with
  | nil => rfl
  | cons line lines ih =>
    have hline := hlines line List.mem_cons_self
    simp only [List.flatMap_cons, List.length_append, List.length_cons] at hroom hlen ⊢
    have hmemory : pre ++ (line.text ++ lines.flatMap Line.text ++ rest) =
        pre ++ (line.name ++ ascii ':' :: (line.gap ++ (line.value ++ cr :: (lf ::
          (lines.flatMap Line.text ++ rest))))) := by simp [Line.text]
    have hparsed : pre ++ (line.name ++ 0 :: (line.gap ++ (line.value ++ 0 :: (lf ::
        (lines.flatMap Line.text ++ rest))))) =
          (pre ++ line.parsed) ++ (lines.flatMap Line.text ++ rest) := by simp [Line.parsed]
    have hlength : (pre ++ line.parsed).length = pre.length + line.text.length := by
      rw [List.length_append, line.length_parsed]
    rw [hmemory, ← Nat.add_assoc, headerLoop_step hline hbuf (by omega) (by omega), hparsed,
      ← hlength, ih (fun l hl => hlines l (List.mem_cons_of_mem line hl)) (by omega)
      (by simp only; omega) (by omega), hlength]
    have hstart : pre.length + line.text.length - buf = pre.length - buf + line.text.length := by
      omega
    simp only [hstart, enter, List.append_assoc, Nat.add_assoc, Nat.add_comm 1]

/-! # Tables that grow -/

theorem enter_of_ge {i : Nat} (hi : nkv + lines.length ≤ i) (mpoHeaders : Nat → KeyValue)
    (start : Nat) : enter mpoHeaders nkv start lines i = mpoHeaders i := by
  induction lines generalizing mpoHeaders nkv start with
  | nil => rfl
  | cons line lines ih =>
    rw [List.length_cons] at hi
    rw [enter, ih (by omega), Function.update_of_ne (by omega)]

/-- The entries do not depend on what was there. -/
theorem enter_eq {i : Nat} (hi : nkv ≤ i) (hlt : i < nkv + lines.length)
    (mpoHeaders mpoHeaders' : Nat → KeyValue) (start : Nat) :
    enter mpoHeaders nkv start lines i = enter mpoHeaders' nkv start lines i := by
  induction lines generalizing mpoHeaders mpoHeaders' nkv start with
  | nil =>
    rw [List.length_nil] at hlt
    omega
  | cons line lines ih =>
    rw [List.length_cons] at hlt
    rw [enter, enter]
    rcases Nat.eq_or_lt_of_le hi with rfl | hlt'
    · rw [enter_of_lt (Nat.lt_succ_self _), enter_of_lt (Nat.lt_succ_self _), Function.update_self,
        Function.update_self]
    · exact ih hlt' (by omega) _ _ _

/-- Entries that are there already are entered again. -/
theorem enter_self {mpoHeaders' : Nat → KeyValue}
    (h : ∀ i < nkv + lines.length, mpoHeaders i = enter mpoHeaders' nkv start lines i) :
    enter mpoHeaders nkv start lines = mpoHeaders := by
  funext i
  rcases Nat.lt_or_ge i nkv with hlt | hge
  · exact enter_of_lt hlt ..
  · rcases Nat.lt_or_ge i (nkv + lines.length) with hlt | hge'
    · rw [h i hlt]
      exact enter_eq hge hlt ..
    · exact enter_of_ge hge' ..

/-- If new tables happen to hold what has been recorded, all of the lines are recorded, however many
they are. -/
theorem headerLoop_lines_fresh (fuel : Nat) (header : CIMFHeader) (pre rest : List UInt8)
    (hlines : ∀ line ∈ lines, line.Good) (hbuf : buf ≤ pre.length)
    (hlen : (pre.length : Int) + (lines.flatMap Line.text).length ≤ buf + len)
    (hfresh : ∀ n i, fresh.keyValues n i = mpoHeaders i)
    (hself : enter mpoHeaders nkv (pre.length - buf) lines = mpoHeaders)
    (hheader : ∀ i < nkv, header.mpoHeaders i = mpoHeaders i) :
    ∃ header', CIMFHeader.headerLoop fresh buf len (fuel + lines.length) header
        (pre ++ (lines.flatMap Line.text ++ rest)) pre.length nkv =
      CIMFHeader.headerLoop fresh buf len fuel header'
        (pre ++ (lines.flatMap Line.parsed ++ rest))
        (pre.length + (lines.flatMap Line.text).length) (nkv + lines.length) ∧
      header'.mpcData = header.mpcData ∧
      ∀ i < nkv + lines.length, header'.mpoHeaders i = mpoHeaders i := by
  induction lines generalizing pre header nkv with
  | nil => exact ⟨header, rfl, rfl, hheader⟩
  | cons line lines ih =>
    have hline := hlines line List.mem_cons_self
    obtain ⟨c, name, hname, hc⟩ := hline.exists_first
    have htext := line.length_text
    have hvalue := List.length_pos_of_ne_nil hline.value_ne_nil
    simp only [List.flatMap_cons, List.length_append, List.length_cons] at hlen ⊢
    have hmemory : pre ++ (line.text ++ lines.flatMap Line.text ++ rest) =
        pre ++ (line.name ++ ascii ':' :: (line.gap ++ (line.value ++ cr :: (lf ::
          (lines.flatMap Line.text ++ rest))))) := by simp [Line.text]
    have hparsed : pre ++ (line.name ++ 0 :: (line.gap ++ (line.value ++ 0 :: (lf ::
        (lines.flatMap Line.text ++ rest))))) =
          (pre ++ line.parsed) ++ (lines.flatMap Line.text ++ rest) := by simp [Line.parsed]
    have hlength : (pre ++ line.parsed).length = pre.length + line.text.length := by
      rw [List.length_append, line.length_parsed]
    have hhead : (pre ++ (line.name ++ ascii ':' :: (line.gap ++ (line.value ++ cr :: (lf ::
        (lines.flatMap Line.text ++ rest)))))).getD pre.length 0 ≠ cr := by
      rw [hname, List.cons_append, getD_at rfl]
      exact hc.2.1
    -- the entry is the one that was there
    have hentry : line.entry (pre.length - buf) = mpoHeaders nkv := by
      have hat := congrFun hself nkv
      rwa [enter, enter_of_lt (Nat.lt_succ_self _), Function.update_self] at hat
    have hself' : enter mpoHeaders (nkv + 1) ((pre ++ line.parsed).length - buf) lines =
        mpoHeaders := by
      rw [enter, hentry, Function.update_eq_self] at hself
      rwa [hlength, show pre.length + line.text.length - buf =
        pre.length - buf + line.text.length by omega]
    have hgrown : ∀ i < nkv + 1, Function.update (header.getHeaders fresh nkv).mpoHeaders nkv
        (line.entry (pre.length - buf)) i = mpoHeaders i := by
      intro i hi
      rcases Nat.lt_succ_iff_lt_or_eq.mp hi with hlt | rfl
      · rw [Function.update_of_ne hlt.ne, CIMFHeader.getHeaders]
        split
        · exact hheader i hlt
        · simp only [hfresh, hheader i hlt, ite_self]
      · rw [Function.update_self, hentry]
    obtain ⟨header', hloop, hdata, hentries⟩ := ih
      { header.getHeaders fresh nkv with
        mpoHeaders := Function.update (header.getHeaders fresh nkv).mpoHeaders nkv
          (line.entry (pre.length - buf)) }
      (pre ++ line.parsed) (fun l hl => hlines l (List.mem_cons_of_mem line hl)) (by omega)
      (by omega) hself' hgrown
    refine ⟨header', ?_, hdata.trans ?_, ?_⟩
    · rw [hmemory, ← Nat.add_assoc, headerLoop_next fresh _ header nkv (by omega) fun h => hhead h.1,
        nextLine_line hline hbuf (by omega)]
      simp only
      rw [hparsed, ← hlength, hloop, hlength]
      simp only [List.append_assoc, Nat.add_assoc, Nat.add_comm 1]
    · simp only [CIMFHeader.getHeaders]
      split
      · rfl
      · rfl
    · rwa [← Nat.add_assoc, Nat.add_right_comm]

/-- The entry of a line leads to its name and its value. -/
theorem pair_entry (hbuf : buf ≤ pre.length) :
    (line.entry (pre.length - buf)).pair ((pre ++ (line.parsed ++ rest)).drop buf) =
      line.field := by
  have hstart : buf + (pre.length - buf) = pre.length := Nat.add_sub_of_le hbuf
  have hvalue : pre.length + line.name.length + 1 + line.gap.length =
      (pre ++ line.name ++ 0 :: line.gap).length := by
    simp only [List.length_append, List.length_cons]
    omega
  unfold KeyValue.pair Line.entry Line.field
  simp only [List.drop_drop, ← Nat.add_assoc, hstart]
  refine Prod.ext ?_ ?_
  · rw [List.drop_left, Line.parsed, List.append_assoc, List.take_left]
  · have hsplit : pre ++ (line.parsed ++ rest) =
        (pre ++ line.name ++ 0 :: line.gap) ++ (line.value ++ 0 :: lf :: rest) := by
      simp [Line.parsed]
    rw [hvalue, hsplit, List.drop_left, List.take_left]

theorem enter_at (mpoHeaders : Nat → KeyValue) (nkv start : Nat) (before : List Line) (line : Line)
    (after : List Line) : enter mpoHeaders nkv start (before ++ line :: after) (nkv + before.length) =
      line.entry (start + (before.flatMap Line.text).length) := by
  rw [enter_append, enter, enter_of_lt (Nat.lt_succ_self _), Function.update_self]

theorem split_of_getElem? {i : Nat} (hi : lines[i]? = some line) :
    ∃ before after, lines = before ++ line :: after ∧ i = before.length := by
  obtain ⟨hlt, heq⟩ := List.getElem?_eq_some_iff.mp hi
  refine ⟨lines.take i, lines.drop (i + 1), ?_, (List.length_take_of_le hlt.le).symm⟩
  rw [← heq, ← List.drop_eq_getElem_cons hlt, List.take_append_drop]

/-- The entries of the lines lead to their names and values. -/
theorem pair_enter {i : Nat} (hbuf : buf ≤ pre.length) (hi : lines[i]? = some line) :
    (enter mpoHeaders nkv (pre.length - buf) lines (nkv + i)).pair
      ((pre ++ (lines.flatMap Line.parsed ++ rest)).drop buf) = line.field := by
  obtain ⟨before, after, rfl, rfl⟩ := split_of_getElem? hi
  have hstart : pre.length - buf + (before.flatMap Line.text).length =
      (pre ++ before.flatMap Line.parsed).length - buf := by
    rw [List.length_append, length_parsed]
    omega
  have hmemory : pre ++ ((before ++ line :: after).flatMap Line.parsed ++ rest) =
      pre ++ before.flatMap Line.parsed ++
        (line.parsed ++ (after.flatMap Line.parsed ++ rest)) := by simp
  rw [enter_at, hstart, hmemory]
  apply pair_entry
  rw [List.length_append]
  exact Nat.le_add_right_of_le hbuf

/-! # Where the lines end -/

open CIMFHeader in
/-- The loop ends where the bytes end. -/
theorem headerLoop_end (hp : (buf : Int) + len ≤ p) :
    headerLoop fresh buf len fuel header memory p nkv = (header, memory, p, nkv) := by
  cases fuel with
  | zero => rfl
  | succ fuel =>
    rw [headerLoop]
    exact if_pos hp

open CIMFHeader in
/-- The loop ends at an empty line. -/
theorem headerLoop_empty (hmemory : memory = pre ++ cr :: lf :: rest) (hp : p = pre.length) :
    headerLoop fresh buf len fuel header memory p nkv = (header, memory, p, nkv) := by
  subst hmemory hp
  cases fuel with
  | zero => rfl
  | succ fuel =>
    have hlf : (pre ++ cr :: lf :: rest).getD (pre.length + 1) 0 = lf := by
      simp [List.getD_eq_getElem?_getD]
    rw [headerLoop]
    simp only
    split
    · rfl
    · rw [if_pos ⟨getD_at rfl, hlf⟩]

open CIMFHeader in
/-- The loop ends in front of a line of which there is no colon yet. -/
theorem headerLoop_name (hcolon : seekChar memory (some p) (len - (p - buf)) (ascii ':') = none) :
    headerLoop fresh buf len fuel header memory p nkv = (header, memory, p, nkv) := by
  cases fuel with
  | zero => rfl
  | succ fuel =>
    rw [headerLoop]
    simp only
    split
    · rfl
    · split
      · rfl
      · rw [hcolon]

end

/-! # The status line -/

/-- The texts of a status line. -/
structure Status where
  version : List UInt8
  code : List UInt8
  reason : List UInt8
  deriving DecidableEq

namespace Status

def text (status : Status) : List UInt8 :=
  status.version ++ ascii ' ' :: (status.code ++ ascii ' ' :: (status.reason ++ [cr, lf]))

/-- The line, once it has been parsed. -/
def parsed (status : Status) : List UInt8 :=
  status.version ++ 0 :: (status.code ++ 0 :: (status.reason ++ [0, lf]))

/-- The pointers to the texts. -/
def line (status : Status) : StatusLine :=
  ⟨some 0, some (status.version.length + 1),
    some (status.version.length + status.code.length + 2)⟩

structure Good (status : Status) : Prop where
  version : ∀ c ∈ status.version, c ≠ ascii ' ' ∧ c ≠ cr ∧ c ≠ lf ∧ c ≠ 0
  code : ∀ c ∈ status.code, c ≠ ascii ' ' ∧ c ≠ cr ∧ c ≠ lf ∧ c ≠ 0
  reason : ∀ c ∈ status.reason, c ≠ cr ∧ c ≠ lf ∧ c ≠ 0
  version_visible : IsVisible status.version
  code_visible : IsVisible status.code
  reason_visible : IsVisible status.reason

theorem length_text (status : Status) : status.text.length =
    status.version.length + status.code.length + status.reason.length + 4 := by
  simp only [text, List.length_append, List.length_cons, List.length_nil]
  omega

theorem length_parsed (status : Status) : status.parsed.length = status.text.length := by
  simp [text, parsed]

end Status

section

variable {status : Status} {memory rest : List UInt8} {len : Int} {buf offs : Nat}

/-- A status line is recorded. Its line feed need not be there. -/
theorem lineParse_text (h : status.Good) (hlen : (status.text.length : Int) ≤ len + 1) :
    lineParse (status.version ++ ascii ' ' :: (status.code ++ ascii ' ' ::
        (status.reason ++ cr :: rest))) 0 len 0 =
      ((status.text.length : Int), status.line,
        status.version ++ 0 :: (status.code ++ 0 :: (status.reason ++ 0 :: rest))) := by
  rw [status.length_text] at hlen ⊢
  obtain ⟨version, code, reason⟩ := status
  obtain ⟨hversion, hcode, hreason, hversion', hcode', hreason'⟩ := h
  simp only at hversion hcode hreason hversion' hcode' hreason' hlen ⊢
  have hlength : 0 < reason.length := by
    obtain ⟨c, hc, -⟩ := hreason'
    exact List.length_pos_of_mem (List.mem_of_head? hc)
  have hsplit : ∀ m : List UInt8, version ++ 0 :: m = (version ++ [0]) ++ m := by simp
  have hsplit' : ∀ m : List UInt8, version ++ 0 :: (code ++ 0 :: m) =
      (version ++ 0 :: (code ++ [0])) ++ m := by simp
  have hzero : ∀ {text : List UInt8}, (∀ c ∈ text, c ≠ cr ∧ c ≠ lf ∧ c ≠ 0) → 0 ∉ text :=
    fun htext hmem => (htext 0 hmem).2.2 rfl
  have hcode_start : skipWhitespace (version ++ 0 :: (code ++ ascii ' ' :: (reason ++ cr :: rest)))
      (some (version.length + 1)) (len - ((version.length + 1 : Nat) - (0 : Nat))) =
        some (version.length + 1) := by
    rw [hsplit]
    apply skipWhitespace_text _ [] (by simp) hcode' (hzero fun c hc => (hcode c hc).2)
    · simp
    · simp only [List.length_nil]
      omega
  have hcode_end : seekWhitespace (version ++ 0 :: (code ++ ascii ' ' :: (reason ++ cr :: rest)))
      (some (version.length + 1)) (len - ((version.length + 1 : Nat) - (0 : Nat))) =
        some (version.length + 1 + code.length) := by
    rw [hsplit]
    apply seekWhitespace_text _ fun c hc => ⟨(hcode c hc).1, (hcode c hc).2.2.2⟩
    · simp
    · omega
  have hreason_start : skipWhitespace (version ++ 0 :: (code ++ 0 :: (reason ++ cr :: rest)))
      (some (version.length + 1 + code.length + 1))
      (len - ((version.length + 1 + code.length + 1 : Nat) - (0 : Nat))) =
        some (version.length + 1 + code.length + 1) := by
    rw [hsplit']
    apply skipWhitespace_text _ [] (by simp) hreason' (hzero hreason)
    · simp only [List.length_append, List.length_cons, List.length_nil]
      omega
    · simp only [List.length_nil]
      omega
  have hreason_end : seekCrlf (version ++ 0 :: (code ++ 0 :: (reason ++ cr :: rest)))
      (some (version.length + 1 + code.length + 1))
      (len - ((version.length + 1 + code.length + 1 : Nat) - (0 : Nat))) =
        some (version.length + 1 + code.length + 1 + reason.length) := by
    rw [hsplit']
    apply seekCrlf_text _ hreason
    · simp only [List.length_append, List.length_cons, List.length_nil]
      omega
    · omega
    · omega
  have hset : (version ++ 0 :: (code ++ ascii ' ' :: (reason ++ cr :: rest))).set
      (version.length + 1 + code.length) 0 = version ++ 0 :: (code ++ 0 :: (reason ++ cr :: rest)) := by
    rw [hsplit, ← List.append_assoc, set_at]
    · simp
    · simp only [List.length_append, List.length_singleton]
  have hset' : (version ++ 0 :: (code ++ 0 :: (reason ++ cr :: rest))).set
      (version.length + 1 + code.length + 1 + reason.length) 0 =
        version ++ 0 :: (code ++ 0 :: (reason ++ 0 :: rest)) := by
    rw [hsplit', ← List.append_assoc, set_at]
    · simp
    · simp only [List.length_append, List.length_cons, List.length_nil]
      omega
  have hversion_start : skipWhitespace (version ++ ascii ' ' :: (code ++ ascii ' ' ::
      (reason ++ cr :: rest))) (some 0) len = some 0 :=
    skipWhitespace_text [] [] (by simp) hversion' (hzero fun c hc => (hversion c hc).2) rfl
      (by simp only [List.length_nil]; omega)
  have hversion_end : seekWhitespace (version ++ ascii ' ' :: (code ++ ascii ' ' ::
      (reason ++ cr :: rest))) (some 0) (len - ((0 : Nat) - (0 : Nat))) =
        some version.length := by
    refine (seekWhitespace_text [] (fun c hc => ⟨(hversion c hc).1, (hversion c hc).2.2.2⟩) rfl
      ?_).trans (by rw [List.length_nil, Nat.zero_add])
    omega
  unfold lineParse
  simp only [Nat.add_zero, hversion_start, hversion_end]
  rw [set_at rfl]
  simp only [hcode_start, hcode_end, hset, hreason_start, hreason_end, hset', Status.line]
  refine Prod.ext ?_ (Prod.ext ?_ rfl)
  · simp only
    omega
  · simp only [StatusLine.mk.injEq, true_and, Option.some.injEq]
    omega

/-- A byte that is not zero now has been there before. -/
theorem Zeroed.getD_eq {memory' : List UInt8} {p : Nat} (h : Zeroed memory memory')
    (hne : memory'.getD p 0 ≠ 0) : memory.getD p 0 = memory'.getD p 0 :=
  ((h.2 p).resolve_right hne).symm

/-- What is known of a first line, whatever it is: blanks are in front of the second and the third
text, and something that ends the line behind them. -/
structure Recognized (memory : List UInt8) (buf : Nat) (len : Int)
    (r : Int × StatusLine × List UInt8) : Prop where
  zeroed : Zeroed memory r.2.2
  blanks : ∀ {version code reason : Nat}, r.2.1 = ⟨some version, some code, some reason⟩ →
    ∃ p q, version ≤ p ∧ p < code ∧ memory.getD p 0 = ascii ' ' ∧
      code ≤ q ∧ q < reason ∧ memory.getD q 0 = ascii ' '
  ended : r.1 ≠ -1 → ∃ p : Nat, (p : Int) < buf + len ∧
    (memory.getD p 0 = cr ∨ memory.getD (p + 1) 0 = lf)

theorem lineParse_recognized (memory : List UInt8) (buf : Nat) (len : Int) (offs : Nat) :
    Recognized memory buf len (lineParse memory buf len offs) := by
  have hblank : ∀ {m : List UInt8} {p q : Nat} {size : Int},
      seekWhitespace m (some p) size = some q → p ≤ q ∧ m.getD q 0 = ascii ' ' := by
    intro m p q size h
    obtain ⟨-, hle, -, -, hstop, -⟩ := scanFrom_eq_some_iff.mp h
    exact ⟨hle, by simpa using hstop⟩
  have hnext : ∀ {m : List UInt8} {p q : Nat} {size : Int},
      skipWhitespace m (some p) size = some q → p ≤ q :=
    fun h => (scanFrom_eq_some_iff.mp h).2.1
  have hfail : ∀ {m : List UInt8} {line : StatusLine}, Zeroed memory m → line.reason = none →
      Recognized memory buf len (-1, line, m) := by
    intro m line hzeroed hreason
    refine ⟨hzeroed, fun heq => ?_, fun hne => absurd rfl hne⟩
    simp only at heq
    rw [heq] at hreason
    cases hreason
  unfold lineParse
  simp only
  split
  · exact hfail (Zeroed.refl memory) rfl
  · split
    · exact hfail (Zeroed.refl memory) rfl
    · next version _ _ p hp =>
      have hzeroed := Zeroed.set memory p
      split
      · exact hfail hzeroed rfl
      · next code hcode =>
        split
        · exact hfail hzeroed rfl
        · next q hq =>
          have hzeroed' := hzeroed.trans (Zeroed.set (memory.set p 0) q)
          split
          · exact hfail hzeroed' rfl
          · next reason hreason =>
            have hq' := hzeroed.getD_eq (p := q) (by rw [(hblank hq).2]; decide)
            have hblanks : ∃ p q, version ≤ p ∧ p < code ∧ memory.getD p 0 = ascii ' ' ∧
                code ≤ q ∧ q < reason ∧ memory.getD q 0 = ascii ' ' :=
              ⟨p, q, (hblank hp).1, hnext hcode, (hblank hp).2, (hblank hq).1, hnext hreason,
                hq'.trans (hblank hq).2⟩
            split
            · refine ⟨hzeroed', fun heq => ?_, fun hne => absurd rfl hne⟩
              cases heq
              exact hblanks
            · next r hr =>
              obtain ⟨-, hle, hlt, -, hstop, -⟩ := scanFrom_eq_some_iff.mp hr
              refine ⟨hzeroed'.trans (Zeroed.set _ r), fun heq => ?_, fun _ => ⟨r, by omega, ?_⟩⟩
              · cases heq
                exact hblanks
              · have hend := Decidable.not_and_iff_or_not.mp (of_decide_eq_false hstop)
                simp only [ne_eq, not_not] at hend
                rcases hend with hend | hend
                · exact Or.inl ((hzeroed'.getD_eq (by rw [hend]; decide)).trans hend)
                · exact Or.inr ((hzeroed'.getD_eq (by rw [hend]; decide)).trans hend)

end

end HTTPClient
