-- SUMMARY: A response in two reads, the first of which ends in a plain body.
import NetworkEtc.HTTPClient.SegmentedLines

/-!
# A read that ends behind the header lines

The second read is parsed from the empty line on, as if header lines were to follow.
-/

namespace HTTPClient

open Library Library.Printf Netfram CIMFHeader CHttpHandler

namespace Response

variable {r : Response} {raw : HttpResponse} {fresh : Fresh} {memory : List UInt8} {k : Nat}

/-- The empty line and the body. -/
def ending (r : Response) : List UInt8 := cr :: lf :: r.body.text

/-- What `GetField` finds for the length of the body, or zero. -/
def contentLength (r : Response) : Int32 :=
  match r.lines.find? (Line.isNamed contentLengthKey) with
  | none => 0
  | some line => atoi line.value

/-- What `Parse` returns in the state `CONTENT`, if the header ends at `p`. -/
def contentEnd (r : Response) (p : Nat) : Int :=
  (Int32.ofInt ((p : Int) + 2 + r.contentLength.toInt)).toInt

/-- The parser takes what stands behind the empty line for a header line, if a line feed follows. -/
def ReadsLine (r : Response) : Prop :=
  ∃ key entry, skipCrlf (r.parsedHead (r.ending ++ [lf])) (some r.headEnd)
      (r.text.length - r.headEnd) = some key ∧
    (nextLine (r.parsedHead (r.ending ++ [lf])) 0 r.text.length key).2 = some entry

theorem length_ending (r : Response) : r.headEnd + r.ending.length = r.text.length := by
  rw [length_text, ending, List.length_cons, List.length_cons]
  omega

@[simp] theorem length_parsedHead (r : Response) (rest : List UInt8) :
    (r.parsedHead rest).length = r.headEnd + rest.length := by
  simp only [parsedHead, List.length_append, HTTPClient.length_parsed, Status.length_parsed, headEnd]
  omega

theorem parsedHead_append (r : Response) (rest behind : List UInt8) :
    r.parsedHead rest ++ behind = r.parsedHead (rest ++ behind) := by
  simp [parsedHead]

theorem getD_parsedHead (r : Response) (rest : List UInt8) (i : Nat) :
    (r.parsedHead rest).getD (r.headEnd + i) 0 = rest.getD i 0 := by
  rw [← getD_drop, drop_parsedHead]

/-- Memory that begins with the header lines. -/
theorem eq_parsedHead_of_take {memory' rest : List UInt8}
    (h : memory'.take r.headEnd = (r.parsedHead rest).take r.headEnd) :
    memory' = r.parsedHead (memory'.drop r.headEnd) := by
  have hlength : (r.status.parsed ++ r.lines.flatMap Line.parsed).length = r.headEnd := by
    rw [List.length_append, HTTPClient.length_parsed, Status.length_parsed, headEnd]
  have hsplit : ∀ rest, r.parsedHead rest =
      (r.status.parsed ++ r.lines.flatMap Line.parsed) ++ rest := by
    simp [parsedHead]
  rw [hsplit, ← hlength, List.take_left, hlength] at h
  rw [hsplit, ← h, List.take_append_drop]

/-- A number ends with its text. -/
theorem atoi_value {value : List UInt8} (hvisible : IsVisible value) (behind : List UInt8) :
    atoi (value ++ 0 :: behind) = atoi value := by
  obtain ⟨c, hc, hblank⟩ := hvisible
  obtain ⟨rest, rfl⟩ : ∃ rest, value = c :: rest := ⟨_, List.eq_cons_of_mem_head? hc⟩
  have htake : ∀ text : List UInt8, (text ++ 0 :: behind).takeWhile Decimal.isDigit =
      text.takeWhile Decimal.isDigit := by
    intro text
    induction text with
    | nil => rfl
    | cons c text ih => rw [List.cons_append, List.takeWhile_cons, List.takeWhile_cons, ih]
  have hnot : ¬ (c = 32 ∨ (9 ≤ c ∧ c ≤ 13)) := by
    rintro (rfl | ⟨-, hle⟩)
    · cases hblank
    · have hspace : c ≤ 32 := UInt8.le_trans hle (by decide)
      simp [isBlank, hspace] at hblank
  have hdrop : ∀ text : List UInt8, (c :: text).dropWhile (fun c => c = 32 ∨ (9 ≤ c ∧ c ≤ 13)) =
      c :: text := fun text => List.dropWhile_cons_of_neg (by simpa using hnot)
  have hdigits := htake (c :: rest)
  rw [List.cons_append] at hdigits ⊢
  unfold atoi
  rw [hdrop, hdrop]
  by_cases hminus : c = 45
  · subst hminus
    simp only [htake]
  · by_cases hplus : c = 43
    · subst hplus
      simp only [htake]
    · dsimp only
      split
      · next heq => exact absurd (List.cons.inj heq).1 hminus
      · next heq => exact absurd (List.cons.inj heq).1 hplus
      · split
        · next heq => exact absurd (List.cons.inj heq).1 hminus
        · next heq => exact absurd (List.cons.inj heq).1 hplus
        · rw [hdigits]

/-- The number that `CONTENT` goes on with. -/
theorem parseContent_fst (hr : r.Good) {header : CIMFHeader} {rest : List UInt8} {line : StatusLine}
    (htable : Tabled header r.status.parsed r.lines) (p : Nat) :
    (HttpResponse.parseContent ⟨header, line, .content, p + 2, -1⟩ (r.parsedHead rest)).1 =
      r.contentEnd p := by
  unfold HttpResponse.parseContent contentEnd contentLength
  rw [if_pos (show (-1 : Int32) < 0 by decide)]
  have hmemory : r.parsedHead rest = r.status.parsed ++ (r.lines.flatMap Line.parsed ++ rest) := rfl
  rcases htable.getField hmemory contentLengthKey with ⟨hfind, hnone⟩ |
    ⟨line, cl, behind, hfind, hsome, hvalue⟩
  · rw [hfind]
    simp only [hnone]
  · have hgood := hr.lines line (List.mem_of_find?_eq_some hfind)
    rw [hfind]
    simp only [hsome, hvalue, atoi_value hgood.visible]

/-! # The first read -/

section

variable (hr : r.Good) (hk : r.headEnd < k)

/-- The block after a first read of the header lines, and whatever behind them. -/
def front (r : Response) (k : Nat) : List UInt8 := r.parsedHead (r.ending.take (k - r.headEnd))

theorem started_body (hk : r.headEnd ≤ k) (memory : List UInt8) : r.started memory k =
    r.status.parsed ++ (r.lines.flatMap Line.text ++ (r.ending.take (k - r.headEnd) ++
      memory.drop k)) := by
  have hcut : k - r.status.text.length = (r.lines.flatMap Line.text).length + (k - r.headEnd) := by
    rw [headEnd] at hk ⊢
    omega
  rw [started, hcut, List.take_length_add_append, List.append_assoc, ending]

theorem length_front (hk : r.headEnd ≤ k) (hlt : k ≤ r.text.length) : (r.front k).length = k := by
  have hlength := r.length_ending
  rw [front, length_parsedHead, List.length_take_of_le (by omega)]
  omega

theorem drop_text (hk : r.headEnd ≤ k) : r.text.drop k = r.ending.drop (k - r.headEnd) := by
  have htext : r.text = (r.status.text ++ r.lines.flatMap Line.text) ++ r.ending := by
    simp [text, ending]
  have hlength : (r.status.text ++ r.lines.flatMap Line.text).length = r.headEnd := by
    rw [List.length_append, headEnd]
  obtain ⟨i, rfl⟩ := Nat.exists_eq_add_of_le hk
  rw [htext, Nat.add_sub_cancel_left, ← hlength, List.drop_length_add_append]

/-- The second read makes the response whole. -/
theorem front_append (hk : r.headEnd ≤ k) (behind : List UInt8) :
    r.front k ++ (r.text.drop k ++ behind) = r.parsedHead (r.ending ++ behind) := by
  rw [drop_text hk, front, parsedHead_append, ← List.append_assoc, List.take_append_drop]

include hr hk in
/-- The header lines of the first read are recorded. -/
theorem parseLines_body (hroom : r.lines.length ≤ keyvalBufferSize) (hlt : k ≤ r.text.length)
    (memory : List UInt8) (raw : HttpResponse) (fresh : Fresh) :
    raw.begun.parseLines fresh (r.started memory k) 0 k r.status.text.length =
      some (r.recorded raw r.lines, r.front k ++ memory.drop k, r.headEnd) := by
  obtain ⟨c, tail, hfirst, hc⟩ := hr.exists_first
  have hne := List.length_pos_of_ne_nil (hfirst ▸ List.cons_ne_nil c tail)
  have hfront : r.front k ++ memory.drop k = r.status.parsed ++ (r.lines.flatMap Line.parsed ++
      (r.ending.take (k - r.headEnd) ++ memory.drop k)) := by
    rw [front, parsedHead_append, parsedHead]
  have hhead : r.status.text.length + (r.lines.flatMap Line.text).length = r.headEnd := rfl
  rw [started_body hk.le, hfront]
  refine parseLines_before hr.lines hroom ?_ (by omega) ?_
  · rw [hfirst, List.cons_append]
    exact skipCrlf_first hc (by omega)
  · intro fuel header nkv
    rw [← hfront, hhead]
    have hget : ∀ i, r.headEnd + i < k → (r.front k ++ memory.drop k).getD (r.headEnd + i) 0 =
        r.ending.getD i 0 := by
      intro i hi
      rw [front, parsedHead_append, getD_parsedHead, List.getD_append _ _ _ _ ?_]
      · simp only [List.getD_eq_getElem?_getD, List.getElem?_take]
        rw [if_pos (by omega)]
      · have hlength := r.length_ending
        rw [List.length_take_of_le (by omega)]
        omega
    have hcr : (r.front k ++ memory.drop k).getD (r.headEnd + 0) 0 = cr := hget 0 (by omega)
    rw [headerLoop]
    simp only
    rw [if_neg (by omega)]
    by_cases hlf : (r.front k ++ memory.drop k).getD (r.headEnd + 1) 0 = lf
    · rw [if_pos ⟨hcr, hlf⟩]
    · -- nothing but the `CR` is there
      have hone : k = r.headEnd + 1 := by
        by_contra hne
        exact hlf (hget 1 (by omega))
      have hcolon : seekChar (r.front k ++ memory.drop k) (some r.headEnd)
          (k - ((r.headEnd : Int) - (0 : Nat))) (ascii ':') = none := by
        apply scanFrom_eq_none
        intro q hle hlt _
        obtain rfl : q = r.headEnd := by omega
        rw [show (r.front k ++ memory.drop k).getD r.headEnd 0 = cr from hcr]
        decide
      rw [if_neg fun h => hlf h.2, hcolon]

end

/-! # Plain bodies -/

/-- What is true of an entry stays true of it, whether it is kept or lost. -/
theorem headerLoop_keeps {Q : KeyValue → Prop} {i buf fuel p nkv : Nat} {len : Int}
    {header : CIMFHeader} (hfresh : ∀ n, Q (fresh.keyValues n i)) (hi : i < nkv)
    (h : Q (header.mpoHeaders i)) :
    nkv ≤ (headerLoop fresh buf len fuel header memory p nkv).2.2.2 ∧
      Q ((headerLoop fresh buf len fuel header memory p nkv).1.mpoHeaders i) := by
  induction fuel generalizing header memory p nkv with
  | zero => exact ⟨le_rfl, h⟩
  | succ fuel ih =>
    rw [headerLoop]
    simp only
    split
    · exact ⟨le_rfl, h⟩
    · split
      · exact ⟨le_rfl, h⟩
      · split
        · exact ⟨le_rfl, h⟩
        · split
          · exact ⟨le_rfl, h⟩
          · split
            · exact ⟨le_rfl, h⟩
            · next r _ =>
              have hkept : ∀ keyvalue, Q (Function.update (header.getHeaders fresh nkv).mpoHeaders nkv
                  keyvalue i) := by
                intro keyvalue
                rw [Function.update_of_ne hi.ne, getHeaders]
                split
                · exact h
                · simp only
                  split
                  · exact h
                  · exact hfresh _
              refine And.imp_left Nat.le_of_succ_le (ih (Nat.lt_succ_of_lt hi) ?_)
              exact hkept _

section

variable {bytes : List UInt8} (hr : r.Good) (hbody : r.body = .plain bytes)

include hr hbody

theorem parseFrom_plain (hfits : r.Fits) (hk : r.headEnd < k) (hlt : k ≤ r.text.length)
    (memory : List UInt8) (raw : HttpResponse) (fresh : Fresh) :
    raw.begun.parseFrom fresh (r.started memory k) 0 k r.status.text.length =
      some ((r.headEnd : Int), r.recorded raw r.lines, r.front k ++ memory.drop k) := by
  rw [parseFrom, parseLines_body hr hk hfits.lines hlt, front, parsedHead_append]
  exact (r.tabled_recorded raw r.lines).parseBody_plain rfl (hr.plain bytes hbody)

/-- The header lines that the second read gives: none, if nothing is taken for one. -/
theorem parseFrom_again (behind : List UInt8) (raw : HttpResponse) (fresh : Fresh)
    (hline : ¬ r.ReadsLine) : ∃ t,
    (r.recorded raw r.lines).parseFrom fresh (r.parsedHead (r.ending ++ behind)) 0 r.text.length
      r.headEnd = some t ∧ r.Recorded (r.status.line, t.2.1, t.2.2) := by
  have hplain := hr.plain bytes hbody
  have htable := r.tabled_recorded raw r.lines
  have hrecorded : ∀ rest, r.Recorded (r.status.line, r.recorded raw r.lines, r.parsedHead rest) := by
    intro rest
    refine ⟨rfl, htable, ⟨rest, rfl⟩, ?_, raw.begun.mpoChunks, ?_⟩
    · rw [hbody]
      rfl
    · rw [hbody]
      rfl
  cases hskip : skipCrlf (r.parsedHead (r.ending ++ behind)) (some (0 + r.headEnd))
      (r.text.length - r.headEnd) with
  | none =>
    refine ⟨(-1, r.recorded raw r.lines, r.parsedHead (r.ending ++ behind)), ?_, hrecorded _⟩
    rw [parseFrom, parseLines_none rfl hskip]
  | some key =>
    obtain ⟨-, hle, hlt, -, hstop, -⟩ := scanFrom_eq_some_iff.mp hskip
    rw [Nat.zero_add] at hle hlt
    have hnone : (nextLine (r.parsedHead (r.ending ++ behind)) 0 r.text.length key).2 = none := by
      have hagree : ∀ i, i < r.text.length → (r.parsedHead (r.ending ++ [lf])).getD i 0 =
          (r.parsedHead (r.ending ++ behind)).getD i 0 := by
        intro i hi
        have hwhole : i < (r.parsedHead r.ending).length := by
          rwa [length_parsedHead, length_ending]
        rw [← parsedHead_append, ← parsedHead_append, List.getD_append _ _ _ _ hwhole,
          List.getD_append _ _ _ _ hwhole]
      have hlast : (r.parsedHead (r.ending ++ [lf])).getD r.text.length 0 = lf := by
        rw [← parsedHead_append]
        exact getD_at (by rw [length_parsedHead, length_ending])
      cases hnext : (nextLine (r.parsedHead (r.ending ++ behind)) 0 r.text.length key).2 with
      | none => rfl
      | some entry =>
        rw [Nat.zero_add] at hskip
        refine absurd ⟨key, entry, ?_, ?_⟩ hline
        · exact scanFrom_agree (fun i _ hi => hagree i hi) (by omega) (fun _ h => h) hskip
        · exact nextLine_agree (fun i _ hi => hagree i hi) (by omega) hlast hnext
    have hfirst : (r.parsedHead (r.ending ++ behind)).getD key 0 ≠ cr := fun h =>
      of_decide_eq_false hstop (Or.inl h)
    have hloop : headerLoop fresh 0 r.text.length (((r.text.length : Nat) : Int).toNat + 1)
        (r.recorded raw r.lines) (r.parsedHead (r.ending ++ behind)) key r.lines.length =
        (r.recorded raw r.lines, (nextLine (r.parsedHead (r.ending ++ behind)) 0 r.text.length key).1,
          key, r.lines.length) := by
      rw [headerLoop_next fresh _ _ _ (by omega) fun h => hfirst h.1]
      generalize nextLine (r.parsedHead (r.ending ++ behind)) 0 r.text.length key = next at hnone
      obtain ⟨memory', entry⟩ := next
      simp only at hnone
      rw [hnone]
    have htake := congrArg (List.take r.headEnd)
      (nextLine_take (r.parsedHead (r.ending ++ behind)) 0 r.text.length key)
    rw [List.take_take, List.take_take, min_eq_left hle] at htake
    have hmemory := eq_parsedHead_of_take htake
    refine ⟨((key : Int), r.recorded raw r.lines, _), ?_, hmemory ▸ hrecorded _⟩
    rw [parseFrom, parseLines_some rfl hskip hloop]
    exact htable.parseBody_plain hmemory hplain

omit hbody in
/-- A line of the second read is recorded behind the header lines. -/
theorem size_readsLine (hline : r.ReadsLine) {t : Int × CIMFHeader × List UInt8}
    (h : (r.recorded raw r.lines).parseFrom fresh (r.parsedHead (r.ending ++ [lf])) 0 r.text.length
      r.headEnd = some t) : r.lines.length < t.2.1.miHeaderSize := by
  obtain ⟨key, entry, hskip, hnext⟩ := hline
  obtain ⟨-, -, hlt, -, hstop, -⟩ := scanFrom_eq_some_iff.mp hskip
  have hfirst : (r.parsedHead (r.ending ++ [lf])).getD key 0 ≠ cr := fun h =>
    of_decide_eq_false hstop (Or.inl h)
  have hskip' : skipCrlf (r.parsedHead (r.ending ++ [lf])) (some (0 + r.headEnd))
      (r.text.length - r.headEnd) = some key := by rwa [Nat.zero_add]
  have hpos := List.length_pos_of_ne_nil hr.lines_ne_nil
  generalize hloop : headerLoop fresh 0 r.text.length (((r.text.length : Nat) : Int).toNat + 1)
    (r.recorded raw r.lines) (r.parsedHead (r.ending ++ [lf])) key r.lines.length = u
  obtain ⟨header, memory', q, nkv⟩ := u
  rw [parseFrom, parseLines_some rfl hskip' hloop] at h
  have hsize : t.2.1.miHeaderSize = nkv := (parseBody_same h).1.1
  rw [hsize]
  rw [headerLoop_next fresh _ _ _ (by omega) fun h => hfirst h.1] at hloop
  generalize nextLine (r.parsedHead (r.ending ++ [lf])) 0 r.text.length key = next at hnext hloop
  obtain ⟨memory', entry⟩ := next
  simp only at hnext
  rw [hnext] at hloop
  have hnkv := congrArg (fun u => u.2.2.2) hloop
  simp only at hnkv
  rw [← hnkv]
  exact (headerLoop_keeps (Q := fun _ => True) (i := 0) (fun _ => trivial)
    (Nat.succ_pos r.lines.length) trivial).1

omit hr hbody in
/-- The empty line is there if two of its bytes are. -/
theorem looksEnded_front (hk : r.headEnd < k) (hlt : k ≤ r.text.length)
    (h : LooksEnded (r.front k ++ memory.drop k) r.headEnd) : k = r.headEnd + 1 := by
  by_contra hne
  obtain ⟨i, rfl⟩ := Nat.exists_eq_add_of_le (show r.headEnd + 2 ≤ k by omega)
  have hcr := h.1
  rw [front, parsedHead_append, getD_parsedHead, Nat.add_assoc, Nat.add_sub_cancel_left,
    Nat.add_comm 2 i, ending, List.take_succ_cons, List.take_succ_cons] at hcr
  exact absurd hcr (show lf ≠ cr by decide)

theorem resumed_plain (hfits : r.Fits) (hk : r.headEnd < k) (hlt : k < r.text.length)
    (hline : ¬ r.ReadsLine) (hend : k = r.headEnd + 1 → 0 < r.contentEnd r.headEnd)
    (memory : List UInt8) (raw : HttpResponse) (fresh : Fresh) : r.Resumed memory k raw fresh := by
  have hstatus : r.status.text.length ≤ r.headEnd := Nat.le_add_right ..
  have hpos := r.status.length_text
  have hheader := parseFrom_plain hr hbody hfits hk hlt.le memory raw fresh
  have hlength := length_front hk.le hlt.le
  obtain ⟨t, ht, hrecorded⟩ := parseFrom_again hr hbody (memory.drop r.text.length) raw
    fresh hline
  have hstore : store (r.front k ++ memory.drop k) k (r.text.drop k) =
      r.parsedHead (r.ending ++ memory.drop r.text.length) := by
    rw [store_second hlength hlt.le, front_append hk.le]
  by_cases hends : LooksEnded (r.front k ++ memory.drop k) r.headEnd
  · have hone := looksEnded_front hk hlt.le hends
    have hcontent := tables_content hr (by omega) hlt.le hheader rfl hk hends
    rw [hstore, front, parsedHead_append, parseContent_fst hr (r.tabled_recorded raw r.lines),
      if_pos (hend hone)] at hcontent
    refine ⟨_, hcontent, rfl, r.tabled_recorded raw r.lines, ⟨_, rfl⟩, ?_, raw.begun.mpoChunks, ?_⟩
    · rw [hbody]
      rfl
    · rw [hbody]
      rfl
  · have hkept := tables_kept hr (by omega) hlt.le hheader rfl rfl (by omega) hk hends
    rw [hstore, ht, Option.map_some] at hkept
    exact ⟨_, hkept, hrecorded⟩

/-- What a cut behind the header lines of a response with a plain body asks for. -/
theorem Segmented.plain (h : r.Segmented k) (hfits : r.Fits) (hk : r.headEnd < k)
    (hlt : k < r.text.length) :
    ¬ r.ReadsLine ∧ (k = r.headEnd + 1 → 0 < r.contentEnd r.headEnd) := by
  have hstatus : r.status.text.length ≤ r.headEnd := Nat.le_add_right ..
  have hpos := r.status.length_text
  have hlength := length_front hk.le hlt.le
  have hheader := fun memory => parseFrom_plain hr hbody hfits hk hlt.le memory HttpResponse.zeros
    Fresh.zeros
  constructor
  · intro hline
    obtain ⟨two, htwo, hsize, -⟩ := h.exists_two hr hfits length_zeros HttpResponse.zeros Fresh.zeros
    have hends : ¬ LooksEnded (r.front k ++ r.zeros.drop k) r.headEnd := by
      intro hends
      obtain rfl := looksEnded_front hk hlt.le hends
      have hcr := hends.1
      rw [getD_behind hlength le_rfl, zeros_getD hlt] at hcr
      cases hcr
    rw [tables_kept hr (by omega) hlt.le (hheader _) rfl rfl (by omega) hk hends,
      store_second hlength hlt.le, front_append hk.le, drop_zeros] at htwo
    obtain ⟨t, ht, rfl⟩ := Option.map_eq_some_iff.mp htwo
    exact absurd (size_readsLine hr hline ht) (Nat.not_lt.mpr hsize.le)
  · rintro rfl
    obtain ⟨two, htwo, -⟩ := h.exists_two hr hfits (r.length_marked r.headEnd) HttpResponse.zeros
      Fresh.zeros
    have hends := looksEnded_behind hlength le_rfl (r.looksEnded_marked r.headEnd)
    have hcontent := tables_content hr (by omega) hlt.le (hheader _) rfl hk hends
    rw [front, parsedHead_append, parseContent_fst hr (r.tabled_recorded _ r.lines)] at hcontent
    by_contra hneg
    rw [if_neg hneg, htwo] at hcontent
    cases hcontent

end

end Response

end HTTPClient
