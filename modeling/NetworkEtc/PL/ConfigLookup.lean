-- SUMMARY: Looking up configuration variables: what the getters answer for well-formed files.
import Mathlib.Data.Bool.AllAny
import NetworkEtc.PL.ConfigFile

/-!
# Looking up

`NameEquals` compares as much as the name of the variable is long, so a variable also answers
for the names that its own begins. `Init` takes quoted text that begins with a comma for a comma.
-/

namespace PL

open Library.Decimal Library.Printf Netfram

namespace ConfigVar

/-- `GetValue`; `behind` is the memory behind the string `value`. -/
def getValue (var : ConfigVar) (behind : List UInt8) : List UInt8 := var.value ++ 0 :: behind

/-- `GetBoolValue` -/
def getBoolValue (var : ConfigVar) (defval : Bool) : Bool :=
  let value := cstr (var.value ++ [0])
  if value = "yes".toList.map ascii ∨ value = "true".toList.map ascii ∨
      value = "on".toList.map ascii then true
  else if value = "no".toList.map ascii ∨ value = "false".toList.map ascii ∨
      value = "off".toList.map ascii then false
  else defval

end ConfigVar

namespace Config

/-- `GetValue`; `none` is `defval`. -/
def getValue (vars : List ConfigVar) (name behind : List UInt8) : Option (List UInt8) :=
  (getVar vars name).map fun var => var.getValue behind

def getBoolValue (vars : List ConfigVar) (name : List UInt8) (defval : Bool) : Bool :=
  match getVar vars name with
  | some var => var.getBoolValue defval
  | none => defval

end Config

/-! # Well-formed files -/

/-- Blanks, or none. -/
def Gap : Type := { l : List UInt8 // IsGap l }

/-- A word without quotes. -/
structure ConfigWord where
  text : List UInt8
  ne_nil : text ≠ []
  isWord : ∀ c ∈ text, isWord c = true
  unquoted : ascii '"' ∉ text

/-- What may stand between quotes. -/
structure QuotedText where
  text : List UInt8
  unquoted : ∀ c ∈ text, c ≠ ascii '"' ∧ c ≠ 0 ∧ c ≠ 10

/-- A value: a plain word or a quoted string. -/
inductive ConfigValue where
  | word (w : ConfigWord)
  | quoted (s : QuotedText)

/-- How a value is written. -/
def ConfigValue.text : ConfigValue → List UInt8
  | word w => w.text
  | quoted s => ascii '"' :: s.text ++ [ascii '"']

/-- What is written. -/
def ConfigValue.val : ConfigValue → List UInt8
  | word w => w.text
  | quoted s => s.text

/-- A value with the blanks before it. -/
structure ConfigItem where
  before : Gap
  value : ConfigValue

def ConfigItem.text (item : ConfigItem) : List UInt8 := item.before.1 ++ item.value.text

/-- More values, each behind a comma with blanks before it. -/
def moreText (more : List (Gap × ConfigItem)) : List UInt8 :=
  more.flatMap fun x => x.1.1 ++ ascii ',' :: x.2.text

/-- A line `name = value, value, ...`. -/
structure ConfigLine where
  indent : Gap
  name : ConfigWord
  space : Gap
  first : ConfigItem
  more : List (Gap × ConfigItem)
  trail : Gap
  ending : List UInt8
  /-- a line feed, with a carriage return or without, or the end of the file -/
  ending_mem : ending ∈ [[], [10], [13, 10]]

namespace ConfigLine

/-- The line up to its last value. -/
def core (line : ConfigLine) : List UInt8 :=
  line.indent.1 ++ line.name.text ++ line.space.1 ++
    ascii '=' :: (line.first.text ++ moreText line.more)

def text (line : ConfigLine) : List UInt8 := line.core ++ (line.trail.1 ++ line.ending)

def values (line : ConfigLine) : List (List UInt8) :=
  line.first.value.val :: line.more.map fun x => x.2.value.val

end ConfigLine

/-- A file of such lines. All but the last end with a line feed, and no two have one name. -/
structure ConfigFile where
  lines : List ConfigLine
  names_nodup : (lines.map (·.name.text)).Nodup
  endings : ∀ line ∈ lines.dropLast, line.ending ≠ []

/-- A number in digits. -/
inductive IntText : List UInt8 → Int → Prop where
  | plain {ds : List UInt8} (h : IsNumeral ds) : IntText ds (value ds)
  | minus {ds : List UInt8} (h : IsNumeral ds) : IntText (45 :: ds) (-value ds)

/-- A number of thousands, millions or billions. -/
inductive ScaledText : List UInt8 → Int → Prop where
  | mk {ds : List UInt8} {n k : Int} {c : UInt8} (h : IntText ds n)
    (hc : (c, k) ∈ [(ascii 'K', 1000), (ascii 'M', 1000 * 1000), (ascii 'G', 1000 * 1000 * 1000)]) :
    ScaledText (ds ++ [c]) (n * k)

/-- The truth value of a word. -/
def boolText (v : List UInt8) : Option Bool :=
  if v ∈ ["yes", "true", "on"].map (·.toList.map ascii) then some true
  else if v ∈ ["no", "false", "off"].map (·.toList.map ascii) then some false
  else none

namespace Config

/-- The getters return these values, in their order. -/
structure Returns (vars : List ConfigVar) (name : List UInt8) (values : List (List UInt8)) :
    Prop where
  listNum : getListNum vars name = values.length
  listValue : ∀ behind i, (getListValue vars name i behind).map cstr = values[i]?
  value : ∀ behind, (getValue vars name behind).map cstr = values.head?
  int : ∀ v ∈ values.head?, ∀ n : Int, IntText v n ∨ ScaledText v n → -2 ^ 31 ≤ n → n < 2 ^ 31 →
    ∀ defval, (getIntValue vars name defval).toInt = n
  bool : ∀ v ∈ values.head?, ∀ defval, getBoolValue vars name defval = (boolText v).getD defval

/-- The getters return their defaults. -/
structure Defaults (vars : List ConfigVar) (name : List UInt8) : Prop where
  listNum : getListNum vars name = 0
  listValue : ∀ behind i, getListValue vars name i behind = none
  value : ∀ behind, getValue vars name behind = none
  int : ∀ defval, getIntValue vars name defval = defval
  bool : ∀ defval, getBoolValue vars name defval = defval

end Config

namespace ConfigFile

def text (file : ConfigFile) : List UInt8 := file.lines.flatMap ConfigLine.text

/-- The values of the line with the name. -/
def values (file : ConfigFile) (name : List UInt8) : Option (List (List UInt8)) :=
  (file.lines.find? fun line => line.name.text = name).map ConfigLine.values

/-- Once the file has been read, whatever was in the buffer, the getters return the values of
the line with the name, or their defaults if there is none. -/
def Answers (file : ConfigFile) (name : List UInt8) : Prop :=
  ∀ buffer, (Config.init file.text buffer).1 = true ∧
    match file.values name with
    | some values => Config.Returns (Config.init file.text buffer).2 name values
    | none => Config.Defaults (Config.init file.text buffer).2 name

/-- There is room for each line up to its last value in the buffer. -/
def Fits (file : ConfigFile) : Prop := ∀ line ∈ file.lines, line.core.length ≤ 1022

instance (file : ConfigFile) : Decidable file.Fits :=
  inferInstanceAs (Decidable (∀ line ∈ file.lines, line.core.length ≤ 1022))

end ConfigFile

/-- The values that `Init` does not take for commas. -/
def keptValues (values : List (List UInt8)) : List (List UInt8) :=
  values.filter fun v => v.head? ≠ some (ascii ',')

/-- The first value has no `K`, `M` or `G`, or it is the only one, or zero. -/
def ScaledAlone (values : List (List UInt8)) : Prop :=
  values.length = 1 ∨ ∀ v ∈ values.head?, ∀ n : Int, ScaledText v n → -2 ^ 31 ≤ n → n < 2 ^ 31 →
    n = 0

/-- The first line whose name the asked one begins with has the values that are asked for, none
of them taken for a comma; there is none if none has the name. -/
def ConfigFile.Finds (file : ConfigFile) (name : List UInt8) : Prop :=
  match file.lines.find? fun line => line.name.text.isPrefixOf name with
  | some line => file.values name = some (keptValues line.values) ∧
      ScaledAlone (keptValues line.values)
  | none => True

/-! # Tokens -/

section

variable {v p m r ds rest : List UInt8} {c : UInt8} {n : Int}

theorem parseToken_quoted {s : List UInt8} (hs : ∀ c ∈ s, c ≠ ascii '"' ∧ c ≠ 0) :
    parseToken (ascii '"' :: s ++ [ascii '"'] ++ p) = some (s, p) := by
  have htake : (s ++ ascii '"' :: p).takeWhile (fun c => decide (c ≠ ascii '"' ∧ c ≠ 0)) = s := by
    rw [List.takeWhile_append_of_pos (by simpa using hs), List.takeWhile_cons_of_neg (by simp),
      List.append_nil]
  have hdrop : (s ++ ascii '"' :: p).drop (s.length + 1) = p := by
    rw [← List.drop_drop, List.drop_left]
    rfl
  have htext : ascii '"' :: s ++ [ascii '"'] ++ p = ascii '"' :: (s ++ ascii '"' :: p) := by simp
  rw [htext]
  unfold parseToken
  rw [List.dropWhile_cons_of_neg (by decide)]
  simp only
  rw [if_neg (by decide), if_pos trivial, htake, hdrop]

namespace ConfigValue

theorem text_ne_nil (v : ConfigValue) : v.text ≠ [] := by
  cases v with
  | word w => exact w.ne_nil
  | quoted s => simp [text]

/-- A value is one token. -/
theorem parseToken_text (v : ConfigValue) (hr : ∀ c ∈ r.head?, isWord c = false) :
    parseToken (v.text ++ r) = some (v.val, r) := by
  cases v with
  | word w => exact parseToken_word w.ne_nil w.isWord w.unquoted hr
  | quoted s => exact parseToken_quoted fun c hc => ⟨(s.unquoted c hc).1, (s.unquoted c hc).2.1⟩

theorem zero_notMem_val (v : ConfigValue) : 0 ∉ v.val := by
  cases v with
  | word w => exact fun hc => absurd (w.isWord 0 hc) (by decide)
  | quoted s => exact fun hc => absurd rfl (s.unquoted 0 hc).2.1

theorem feed_notMem_text (v : ConfigValue) : 10 ∉ v.text := by
  cases v with
  | word w => exact fun hc => absurd (w.isWord 10 hc) (by decide)
  | quoted s =>
    intro hc
    rcases List.mem_append.mp hc with hc | hc
    · rcases List.mem_cons.mp hc with hc | hc
      · exact absurd hc (by decide)
      · exact absurd rfl (s.unquoted 10 hc).2.2
    · exact absurd (List.mem_singleton.mp hc) (by decide)

theorem length_val (v : ConfigValue) : v.val.length ≤ v.text.length := by
  cases v with
  | word w => exact le_rfl
  | quoted s =>
    rw [text, val, List.length_append, List.length_cons]
    omega

end ConfigValue

/-! # Lines -/

/-- A value that is read is appended, or taken for a comma. -/
def ConfigVar.keep (var : ConfigVar) (values : List (List UInt8)) : ConfigVar :=
  { var with
    numelem := var.numelem + (keptValues values).length
    value := var.value ++ storedValues (keptValues values) }

theorem ConfigVar.keep_cons {var : ConfigVar} {values : List (List UInt8)} :
    var.keep (v :: values) =
      (if v.head? = some (ascii ',') then var else var.append v).keep values := by
  unfold ConfigVar.keep keptValues
  split
  · next hcomma => rw [List.filter_cons_of_neg (by simp [hcomma])]
  · next hcomma =>
    rw [List.filter_cons_of_pos (by simp [hcomma]), storedValues_cons]
    simp [ConfigVar.append, Nat.add_assoc, Nat.add_comm]

namespace Config

variable {fuel : Nat} {var : ConfigVar}

theorem readValues_item (item : ConfigItem) (hr : ∀ c ∈ r.head?, isWord c = false) :
    readValues (fuel + 1) (item.text ++ r) var =
      readValues fuel r
        (if item.value.val.head? = some (ascii ',') then var else var.append item.value.val) := by
  rw [ConfigItem.text, List.append_assoc, readValues, parseToken_gap item.before.2,
    item.value.parseToken_text hr]
  simp only
  split
  · rfl
  · rfl

theorem readValues_comma (after : Gap) :
    readValues (fuel + 1) (after.1 ++ ascii ',' :: r) var = readValues fuel r var := by
  rw [readValues, parseToken_gap after.2, parseToken_comma]
  simp only
  rw [if_pos (List.head?_cons ..)]

theorem readValues_end (hm : ∀ c ∈ m, isBlank c = true) :
    readValues fuel (m ++ 0 :: r) var = var := by
  cases fuel with
  | zero => rfl
  | succ fuel => rw [readValues, parseToken_blank hm]

/-- What follows a value is no part of it. -/
theorem head_moreText (more : List (Gap × ConfigItem)) (hm : ∀ c ∈ m, isBlank c = true) :
    ∀ c ∈ (moreText more ++ (m ++ 0 :: r)).head?, isWord c = false := by
  cases more with
  | nil =>
    cases m with
    | nil =>
      intro c hc
      cases hc
      rfl
    | cons e m =>
      intro c hc
      cases hc
      exact isWord_eq_false (hm _ List.mem_cons_self)
  | cons x more =>
    have htext : moreText (x :: more) ++ (m ++ 0 :: r) =
        x.1.1 ++ ascii ',' :: (x.2.text ++ moreText more ++ (m ++ 0 :: r)) := by
      simp [moreText]
    rw [htext]
    apply x.1.2.head_append
    intro c hc
    cases hc
    rfl

/-- The values behind the first are read to the end of the line. -/
theorem readValues_more (more : List (Gap × ConfigItem)) (hm : ∀ c ∈ m, isBlank c = true)
    (hfuel : (moreText more).length < fuel) :
    readValues fuel (moreText more ++ (m ++ 0 :: r)) var =
      var.keep (more.map fun x => x.2.value.val) := by
  induction more generalizing fuel var with
  | nil =>
    rw [moreText, List.flatMap_nil, List.nil_append, readValues_end hm]
    simp [ConfigVar.keep, keptValues, storedValues]
  | cons x more ih =>
    have htext : moreText (x :: more) ++ (m ++ 0 :: r) =
        x.1.1 ++ ascii ',' :: (x.2.text ++ (moreText more ++ (m ++ 0 :: r))) := by
      simp [moreText]
    have hpos : 0 < x.2.text.length := by
      rw [ConfigItem.text, List.length_append]
      exact Nat.add_pos_right _ (List.length_pos_iff.mpr x.2.value.text_ne_nil)
    have hlen : (moreText (x :: more)).length =
        x.1.1.length + (x.2.text.length + (moreText more).length + 1) := by
      simp [moreText]
    rw [hlen] at hfuel
    obtain ⟨n, rfl⟩ : ∃ n, fuel = n + 2 := ⟨fuel - 2, by omega⟩
    rw [htext, readValues_comma, readValues_item _ (head_moreText more hm), ih (by omega),
      List.map_cons, ConfigVar.keep_cons]

end Config

namespace ConfigLine

variable {line : ConfigLine} {vars : List ConfigVar} {file buffer : List UInt8} {fuel : Nat}

/-- The variable of a line. -/
def var (line : ConfigLine) : ConfigVar :=
  ⟨line.name.text, (keptValues line.values).length, storedValues (keptValues line.values)⟩

theorem head_equals : ∀ c ∈ (line.space.1 ++ ascii '=' :: r).head?, isWord c = false := by
  apply line.space.2.head_append
  intro c hc
  cases hc
  rfl

/-- A line makes its variable. -/
theorem readLine_core (hm : ∀ c ∈ m, isBlank c = true) :
    Config.readLine vars (line.core ++ m ++ 0 :: r) = some (vars ++ [line.var]) := by
  have htext : line.core ++ m ++ 0 :: r = line.indent.1 ++ (line.name.text ++ (line.space.1 ++
      ascii '=' :: (line.first.text ++ (moreText line.more ++ (m ++ 0 :: r))))) := by
    simp [core]
  rw [htext, Config.readLine, parseToken_gap line.indent.2,
    parseToken_word line.name.ne_nil line.name.isWord line.name.unquoted head_equals]
  simp only
  rw [parseToken_gap line.space.2, parseToken_equals]
  simp only
  rw [if_pos (List.head?_cons ..), Config.readValues_item _ (Config.head_moreText line.more hm),
    Config.readValues_more line.more hm (by
      simp only [List.length_append, List.length_cons]
      omega),
    ← ConfigVar.keep_cons]
  simp [ConfigVar.keep, var, values]

theorem text_ne_nil : line.text ≠ [] := by simp [text, core]

theorem feed_notMem_gap (g : Gap) : 10 ∉ g.1 := by
  intro hc
  have hend := (g.2 10 hc).2
  exact absurd hend (by decide)

theorem feed_notMem_item (item : ConfigItem) : 10 ∉ item.text := by
  intro hc
  rcases List.mem_append.mp hc with hc | hc
  · exact feed_notMem_gap item.before hc
  · exact item.value.feed_notMem_text hc

/-- The line feed is at the end of the line. -/
theorem feed_notMem_core : 10 ∉ line.core := by
  intro hc
  simp only [core, List.append_assoc, List.mem_append, List.mem_cons] at hc
  rcases hc with hc | hc | hc | hc | hc | hc
  · exact feed_notMem_gap line.indent hc
  · exact absurd (line.name.isWord 10 hc) (by decide)
  · exact feed_notMem_gap line.space hc
  · exact absurd hc (by decide)
  · exact feed_notMem_item line.first hc
  · obtain ⟨x, -, hc⟩ := List.mem_flatMap.mp hc
    rcases List.mem_append.mp hc with hc | hc
    · exact feed_notMem_gap x.1 hc
    · rcases List.mem_cons.mp hc with hc | hc
      · exact absurd hc (by decide)
      · exact feed_notMem_item x.2 hc

end ConfigLine

namespace Config

variable {l file buffer : List UInt8} {vars : List ConfigVar} {fuel : Nat}

/-- `fgets` reads to the line feed, or as far as there is room. -/
theorem fgets_line (file : List UInt8) (hl : 10 ∉ l) : fgets 1023 (l ++ 10 :: file) =
    if l.length < 1022 then some (l ++ [10], file)
    else some (l.take 1022, l.drop 1022 ++ 10 :: file) := by
  have hline : ((l ++ 10 :: file).takeWhile (· ≠ 10)).length = l.length := by
    rw [List.takeWhile_append_of_pos, List.takeWhile_cons_of_neg (by simp), List.append_nil]
    intro c hc
    simp only [ne_eq, decide_eq_true_eq]
    rintro rfl
    exact hl hc
  unfold fgets
  rw [if_neg (by simp)]
  simp only
  rw [hline]
  split
  · next hlt =>
    have hmin : min (1023 - 1) (l.length + 1) = (l ++ [10]).length := by
      rw [List.length_append, List.length_singleton]
      omega
    have hfile : l ++ 10 :: file = (l ++ [10]) ++ file := by simp
    rw [hmin, hfile, List.take_left, List.drop_left]
  · next hge =>
    have hmin : min (1023 - 1) (l.length + 1) = 1022 := by omega
    rw [hmin, List.take_append_of_le_length (by omega), List.drop_append_of_le_length (by omega)]

/-- A piece of the file is read into the buffer. -/
theorem readFile_step {line rest : List UInt8} (fuel : Nat) (buffer : List UInt8)
    (vars' : List ConfigVar) (hgets : fgets 1023 file = some (line, rest))
    (hlen : line.length ≤ 1022) (hread : ∀ r, readLine vars (line ++ 0 :: r) = some vars') :
    ∃ buffer', readFile (fuel + 1) file buffer vars = readFile fuel rest buffer' vars' := by
  obtain ⟨r, hr⟩ := readInto_eq buffer hlen
  refine ⟨line ++ 0 :: r, ?_⟩
  rw [readFile, hgets]
  simp only [hr, hread]

/-- Blanks up to the end of a line are passed over. -/
theorem readFile_blanks (hl : 10 ∉ l) (hblank : ∀ c ∈ l, isBlank c = true)
    (hfuel : (l ++ 10 :: file).length < fuel) : ∃ fuel' buffer', file.length < fuel' ∧
      readFile fuel (l ++ 10 :: file) buffer vars = readFile fuel' file buffer' vars := by
  induction fuel generalizing l buffer with
  | zero => exact absurd hfuel (Nat.not_lt_zero _)
  | succ fuel ih =>
    have hgets := fgets_line file hl
    have hpass : ∀ m : List UInt8, (∀ c ∈ m, isBlank c = true) →
        ∀ r, readLine vars (m ++ 0 :: r) = some vars := by
      intro m hm r
      unfold readLine
      rw [parseToken_blank hm]
    simp only [List.length_append, List.length_cons] at hfuel
    by_cases hlt : l.length < 1022
    · rw [if_pos hlt] at hgets
      have hline : ∀ c ∈ l ++ [10], isBlank c = true := by
        intro c hc
        rcases List.mem_append.mp hc with hc | hc
        · exact hblank c hc
        · rw [List.mem_singleton.mp hc]
          rfl
      obtain ⟨buffer', hstep⟩ := readFile_step fuel buffer vars hgets
        (by simpa using hlt) (hpass _ hline)
      exact ⟨fuel, buffer', by omega, hstep⟩
    · rw [if_neg hlt] at hgets
      obtain ⟨buffer', hstep⟩ := readFile_step fuel buffer vars hgets
        (List.length_take_le ..) (hpass _ fun c hc => hblank c (List.mem_of_mem_take hc))
      rw [hstep]
      apply ih (fun hc => hl (List.mem_of_mem_drop hc))
        (fun c hc => hblank c (List.mem_of_mem_drop hc))
      simp only [List.length_append, List.length_cons, List.length_drop]
      omega

/-- A line that there is room for makes its variable, and the next one follows. -/
theorem readFile_line {line : ConfigLine} (buffer : List UInt8) (vars : List ConfigVar)
    (hfits : line.core.length ≤ 1022) (hending : line.ending ≠ [])
    (hfuel : (line.text ++ file).length < fuel) :
    ∃ fuel' buffer', file.length < fuel' ∧ readFile fuel (line.text ++ file) buffer vars =
      readFile fuel' file buffer' (vars ++ [line.var]) := by
  obtain ⟨l, hl, hblank, htext⟩ : ∃ l, 10 ∉ l ∧ (∀ c ∈ l, isBlank c = true) ∧
      line.text = line.core ++ l ++ [10] := by
    have htrail : ∀ c ∈ line.trail.1, isBlank c = true := fun c hc => (line.trail.2 c hc).1
    have hfeed := ConfigLine.feed_notMem_gap line.trail
    rcases List.mem_cons.mp line.ending_mem with hnil | hmem
    · exact absurd hnil hending
    · rcases List.mem_cons.mp hmem with heq | hmem
      · exact ⟨line.trail.1, hfeed, htrail, by simp [ConfigLine.text, heq]⟩
      · have heq := List.mem_singleton.mp hmem
        refine ⟨line.trail.1 ++ [13], ?_, ?_, by simp [ConfigLine.text, heq]⟩
        · simpa using hfeed
        · intro c hc
          rcases List.mem_append.mp hc with hc | hc
          · exact htrail c hc
          · rw [List.mem_singleton.mp hc]
            rfl
  have hnot : 10 ∉ line.core ++ l := by
    rw [List.mem_append, not_or]
    exact ⟨line.feed_notMem_core, hl⟩
  have hfile : line.text ++ file = line.core ++ l ++ 10 :: file := by simp [htext]
  have hgets := fgets_line file hnot
  rw [hfile] at hfuel ⊢
  simp only [List.length_append, List.length_cons] at hfuel
  obtain ⟨fuel, rfl⟩ : ∃ n, fuel = n + 1 := ⟨fuel - 1, by omega⟩
  by_cases hlt : (line.core ++ l).length < 1022
  · rw [if_pos hlt] at hgets
    have hline : ∀ c ∈ l ++ [10], isBlank c = true := by
      intro c hc
      rcases List.mem_append.mp hc with hc | hc
      · exact hblank c hc
      · rw [List.mem_singleton.mp hc]
        rfl
    obtain ⟨buffer', hstep⟩ := readFile_step fuel buffer (vars ++ [line.var]) hgets
      (by rw [List.length_append, List.length_singleton]; omega) fun r => by
        rw [List.append_assoc line.core]
        exact line.readLine_core hline
    exact ⟨fuel, buffer', by omega, hstep⟩
  · rw [if_neg hlt] at hgets
    rw [List.take_append, List.take_of_length_le hfits, List.drop_append,
      List.drop_eq_nil_of_le hfits, List.nil_append] at hgets
    obtain ⟨buffer', hstep⟩ := readFile_step fuel buffer (vars ++ [line.var]) hgets
      (by rw [List.length_append, List.length_take]; omega)
      fun r => line.readLine_core fun c hc => hblank c (List.mem_of_mem_take hc)
    rw [hstep]
    apply readFile_blanks (fun hc => hl (List.mem_of_mem_drop hc))
      fun c hc => hblank c (List.mem_of_mem_drop hc)
    simp only [List.length_append, List.length_cons, List.length_drop] at hlt ⊢
    omega

/-- The last line need not have an end. -/
theorem readFile_last {line : ConfigLine} (hfits : line.core.length ≤ 1022)
    (hending : line.ending = []) (hfuel : 0 < fuel) :
    readFile fuel line.text buffer vars = (true, vars ++ [line.var]) := by
  obtain ⟨fuel, rfl⟩ : ∃ n, fuel = n + 1 := ⟨fuel - 1, by omega⟩
  have htext : line.text = line.core ++ line.trail.1 := by simp [ConfigLine.text, hending]
  have hblank : ∀ c ∈ line.trail.1, isBlank c = true := fun c hc => (line.trail.2 c hc).1
  obtain ⟨n, -, hn, hall, hgets⟩ := fgets_eq line.text_ne_nil
  have hle : line.core.length ≤ n := by
    apply hall _ hfits
    · rw [htext, List.take_left]
      rintro c hc rfl
      exact line.feed_notMem_core hc
    · rw [htext, List.length_append]
      omega
  obtain ⟨buffer', hstep⟩ := readFile_step fuel buffer (vars ++ [line.var]) hgets
    ((List.length_take_le ..).trans hn) fun r => by
      rw [htext, List.take_append, List.take_of_length_le hle]
      exact line.readLine_core fun c hc => hblank c (List.mem_of_mem_take hc)
  rw [hstep]
  apply readFile_blank
  intro c hc
  rw [htext, List.drop_append, List.drop_eq_nil_of_le hle, List.nil_append] at hc
  exact hblank c (List.mem_of_mem_drop hc)

/-- All lines are read. -/
theorem readFile_lines {lines : List ConfigLine} (hfits : ∀ line ∈ lines, line.core.length ≤ 1022)
    (hendings : ∀ line ∈ lines.dropLast, line.ending ≠ [])
    (hfuel : (lines.flatMap ConfigLine.text).length < fuel) :
    readFile fuel (lines.flatMap ConfigLine.text) buffer vars =
      (true, vars ++ lines.map ConfigLine.var) := by
  induction lines generalizing fuel buffer vars with
  | nil =>
    rw [List.flatMap_nil, List.map_nil, List.append_nil]
    exact readFile_blank (by simp)
  | cons line lines ih =>
    have hfirst := hfits line List.mem_cons_self
    rw [List.flatMap_cons] at hfuel ⊢
    by_cases hending : line.ending = []
    · have hnil : lines = [] := by
        by_contra hne
        rw [List.dropLast_cons_of_ne_nil hne] at hendings
        exact hendings line List.mem_cons_self hending
      subst hnil
      rw [List.flatMap_nil, List.append_nil] at hfuel ⊢
      exact readFile_last hfirst hending (by omega)
    · obtain ⟨fuel', buffer', hlt, hread⟩ :=
        readFile_line buffer vars hfirst hending hfuel
      rw [hread, ih (fun line' hline => hfits line' (List.mem_cons_of_mem _ hline)) _ hlt]
      · simp
      · intro line' hline
        apply hendings line'
        rw [List.dropLast_cons_of_ne_nil (List.ne_nil_of_mem (List.mem_of_mem_dropLast hline))]
        exact List.mem_cons_of_mem _ hline

end Config

theorem ConfigFile.init_text {file : ConfigFile} (hfits : file.Fits) (buffer : List UInt8) :
    Config.init file.text buffer = (true, file.lines.map ConfigLine.var) :=
  Config.readFile_lines hfits file.endings (Nat.lt_succ_self _)

end

/-! # Numbers -/

section

variable {ds rest v : List UInt8} {n k : Int} {length : Int32}

theorem foldl_push_int64 (ds : List UInt8) (m : Nat) :
    ds.foldl (fun (n : Int64) c => n * 10 + Int64.ofNat (digit c)) (Int64.ofNat m) =
      Int64.ofNat (ds.foldl (fun n c => n * 10 + digit c) m) := by
  induction ds generalizing m with
  | nil => rfl
  | cons c ds ih =>
    have hpush : Int64.ofNat m * 10 + Int64.ofNat (digit c) = Int64.ofNat (m * 10 + digit c) := by
      rw [Int64.ofNat_add, Int64.ofNat_mul]
      rfl
    rw [List.foldl_cons, List.foldl_cons, hpush, ih]

/-- A number in front of something else is read, modulo `2 ^ 64`. -/
theorem strntoint64_eq (h : IntText ds n) (hrest : ∀ c ∈ rest.head?, isDigit c = false)
    (hlen : ds.length ≤ length.toInt.toNat) :
    strntoint64 (ds ++ rest) length = (Int64.ofInt n, ds.length) := by
  have hhead : ∀ k, ∀ c ∈ (rest.take k).head?, isDigit c = false := by
    intro k c hc
    cases k with
    | zero => exact absurd hc (by simp)
    | succ k =>
      cases rest with
      | nil => exact absurd hc (by simp)
      | cons e rest => exact hrest c hc
  have hpos : 0 < ds.length := by
    cases h with
    | plain h => exact List.length_pos_iff.mpr h.1
    | minus h => exact Nat.succ_pos _
  have hlong : ¬ length < 1 := by
    rw [Int32.lt_iff_toInt_lt]
    change ¬ length.toInt < 1
    omega
  unfold strntoint64
  rw [if_neg hlong]
  cases h with
  | @plain ds h =>
    obtain ⟨c, l, rfl⟩ := List.exists_cons_of_ne_nil h.1
    have hc : c ≠ 45 := by
      rintro rfl
      exact absurd (h.2 45 List.mem_cons_self) (by decide)
    have hdigits : leadingDigits (c :: l ++ rest) length.toInt.toNat = c :: l :=
      leadingDigits_append h.2 hlen (hhead _)
    unfold leadingDigits at hdigits
    simp only [List.cons_append]
    split
    · next heq => exact absurd (List.cons.inj heq).1 hc
    · rw [digitLoop_eq, Nat.sub_zero, ← List.cons_append, hdigits, Nat.zero_add]
      exact Prod.ext (foldl_push_int64 (c :: l) 0) rfl
  | @minus ds h =>
    have hlen' : ds.length ≤ length.toInt.toNat - 1 := by
      rw [List.length_cons] at hlen
      omega
    have hdigits : leadingDigits (ds ++ rest) (length.toInt.toNat - 1) = ds :=
      leadingDigits_append h.2 hlen' (hhead _)
    have hone : 0 < ds.length := List.length_pos_iff.mpr h.1
    unfold leadingDigits at hdigits
    simp only [List.cons_append]
    rw [digitLoop_eq, hdigits]
    simp only
    rw [if_neg (by omega)]
    refine Prod.ext ?_ (Nat.add_comm ..)
    simp only
    rw [Int64.ofInt_neg]
    exact congrArg Neg.neg (foldl_push_int64 ds 0)

namespace ConfigVar

variable {var : ConfigVar} {vs : List (List UInt8)} {c : UInt8}

/-- `GetIntValue` if the values begin with a number. -/
theorem getIntValue_eq (h : IntText ds n) (hvalue : var.value = ds ++ rest) (hne : rest ≠ [])
    (hrest : ∀ c ∈ rest.head?, isDigit c = false) (hlen : var.value.length < 2 ^ 31) :
    var.getIntValue =
      if rest.length = 2 then
        match rest.head? with
        | some 75 => Int32.ofInt n * 1000
        | some 77 => Int32.ofInt n * 1000 * 1000
        | some 71 => Int32.ofInt n * 1000 * 1000 * 1000
        | _ => Int32.ofInt n
      else Int32.ofInt n := by
  have hlength : (Int32.ofNat var.value.length).toInt.toNat = var.value.length := by
    rw [Int32.toInt_ofNat_of_lt hlen, Int.toNat_natCast]
  have hread : strntoint64 (var.value ++ [0]) (Int32.ofNat var.value.length) =
      (Int64.ofInt n, ds.length) := by
    rw [hvalue, List.append_assoc]
    apply strntoint64_eq h
    · rw [List.head?_append_of_ne_nil _ hne]
      exact hrest
    · rw [← hvalue, hlength, hvalue, List.length_append]
      exact Nat.le_add_right ..
  have hnext : var.value[ds.length]? = rest.head? := by
    rw [hvalue, List.getElem?_append_right le_rfl, Nat.sub_self, List.head?_eq_getElem?]
  have hlast : ds.length + 2 = var.value.length ↔ rest.length = 2 := by
    rw [hvalue, List.length_append]
    omega
  rw [← hnext, ← Int64.toInt32_ofInt]
  unfold getIntValue
  rw [hread]
  exact if_congr hlast rfl rfl

theorem getIntValue_plain (h : IntText v n) (hvalue : var.value = storedValues (v :: vs))
    (hlen : var.value.length < 2 ^ 31) : var.getIntValue = Int32.ofInt n := by
  rw [storedValues_cons] at hvalue
  rw [getIntValue_eq h hvalue (by simp) (by simp [isDigit]) hlen]
  split
  · rfl
  · rfl

theorem getIntValue_scaled (h : IntText ds n)
    (hc : (c, k) ∈ [(ascii 'K', 1000), (ascii 'M', 1000 * 1000), (ascii 'G', 1000 * 1000 * 1000)])
    (hvalue : var.value = storedValues [ds ++ [c]]) (hlen : var.value.length < 2 ^ 31) :
    var.getIntValue = Int32.ofInt (n * k) := by
  have hvalue' : var.value = ds ++ [c, 0] := by
    rw [hvalue, storedValues]
    simp
  simp only [List.mem_cons, Prod.mk.injEq, List.not_mem_nil, or_false] at hc
  rcases hc with ⟨rfl, rfl⟩ | ⟨rfl, rfl⟩ | ⟨rfl, rfl⟩
  · rw [getIntValue_eq h hvalue' (by simp) (by rintro c ⟨⟩; rfl) hlen, Int32.ofInt_mul]
    rfl
  · rw [getIntValue_eq h hvalue' (by simp) (by rintro c ⟨⟩; rfl) hlen, Int32.ofInt_mul,
      Int32.ofInt_mul, ← Int32.mul_assoc]
    rfl
  · rw [getIntValue_eq h hvalue' (by simp) (by rintro c ⟨⟩; rfl) hlen, Int32.ofInt_mul,
      Int32.ofInt_mul, Int32.ofInt_mul, ← Int32.mul_assoc, ← Int32.mul_assoc]
    rfl

/-- The letter is not looked at if there are more values. -/
theorem getIntValue_scaled_many (h : IntText ds n)
    (hc : (c, k) ∈ [(ascii 'K', 1000), (ascii 'M', 1000 * 1000), (ascii 'G', 1000 * 1000 * 1000)])
    (hvalue : var.value = storedValues ((ds ++ [c]) :: v :: vs))
    (hlen : var.value.length < 2 ^ 31) : var.getIntValue = Int32.ofInt n := by
  have hvalue' : var.value = ds ++ (c :: 0 :: storedValues (v :: vs)) := by
    rw [hvalue, storedValues_cons]
    simp
  have hdigit : isDigit c = false := by
    simp only [List.mem_cons, Prod.mk.injEq, List.not_mem_nil, or_false] at hc
    rcases hc with ⟨rfl, -⟩ | ⟨rfl, -⟩ | ⟨rfl, -⟩
    · rfl
    · rfl
    · rfl
  rw [getIntValue_eq h hvalue' (by simp) (by simpa using hdigit) hlen, if_neg]
  rw [storedValues_cons]
  simp

end ConfigVar

/-! # Getters -/

namespace ConfigVar

variable {var : ConfigVar} {vs : List (List UInt8)}

theorem cstr_stored (hzero : ∀ v ∈ vs, 0 ∉ v) (rest : List UInt8) :
    cstr (storedValues vs ++ 0 :: rest) = vs.head?.getD [] := by
  cases vs with
  | nil => rfl
  | cons v vs =>
    rw [storedValues_cons, List.append_assoc, List.cons_append,
      cstr_append (hzero v List.mem_cons_self)]
    rfl

theorem getListValue_stored (hzero : ∀ v ∈ vs, 0 ∉ v) (hnum : var.numelem = vs.length)
    (hvalue : var.value = storedValues vs) (behind : List UInt8) (i : Nat) :
    (var.getListValue i behind).map cstr = vs[i]? := by
  unfold getListValue
  rw [hnum, hvalue]
  split
  · next hle => rw [List.getElem?_eq_none hle, Option.map_none]
  · next hlt =>
    rw [skipValues_stored hzero (by omega), Option.map_some,
      cstr_stored (fun v hv => hzero v (List.mem_of_mem_drop hv)), List.head?_drop,
      List.getElem?_eq_getElem (by omega)]
    rfl

theorem getBoolValue_stored (hzero : ∀ v ∈ vs, 0 ∉ v) (hv : v ∈ vs.head?)
    (hvalue : var.value = storedValues vs) (defval : Bool) :
    var.getBoolValue defval = (boolText v).getD defval := by
  have hcstr : cstr (var.value ++ [0]) = v := by
    rw [hvalue, cstr_stored hzero, Option.mem_def.mp hv]
    rfl
  unfold getBoolValue boolText
  simp only [hcstr, List.map_cons, List.map_nil, List.mem_cons, List.not_mem_nil, or_false]
  split
  · rfl
  · split
    · rfl
    · rfl

end ConfigVar

end

namespace ConfigLine

variable {line : ConfigLine} {v : List UInt8}

theorem zero_notMem (hv : v ∈ keptValues line.values) : 0 ∉ v := by
  rcases List.mem_cons.mp (List.mem_of_mem_filter hv) with rfl | hv
  · exact line.first.value.zero_notMem_val
  · obtain ⟨x, -, rfl⟩ := List.mem_map.mp hv
    exact x.2.value.zero_notMem_val

theorem length_stored_more (more : List (Gap × ConfigItem)) :
    (storedValues (more.map fun x => x.2.value.val)).length ≤ (moreText more).length := by
  induction more with
  | nil => exact le_rfl
  | cons x more ih =>
    have hval := x.2.value.length_val
    have htext : moreText (x :: more) = x.1.1 ++ ascii ',' :: x.2.text ++ moreText more := by
      simp [moreText]
    rw [List.map_cons, storedValues_cons, htext, ConfigItem.text]
    simp only [List.length_append, List.length_cons]
    omega

/-- The values take no more room than the line. -/
theorem length_stored : line.var.value.length ≤ line.core.length := by
  have hkept : line.var.value.length ≤ (storedValues line.values).length := by
    apply List.Sublist.length_le
    exact List.filter_sublist.flatMap _
  have hmore := length_stored_more line.more
  have hval := line.first.value.length_val
  refine hkept.trans ?_
  rw [values, storedValues_cons, core, ConfigItem.text]
  simp only [List.length_append, List.length_cons]
  omega

end ConfigLine

namespace Config

variable {vars : List ConfigVar} {name : List UInt8} {line : ConfigLine}
  {values : List (List UInt8)}

/-- With several values the letter behind the first is not looked at. -/
theorem scaledAlone_of_returns (hvar : getVar vars name = some line.var)
    (hlen : line.var.value.length < 2 ^ 31)
    (h : Returns vars name (keptValues line.values)) : ScaledAlone (keptValues line.values) := by
  have hvalue : line.var.value = storedValues (keptValues line.values) := rfl
  have hint := h.int
  unfold getIntValue at hint
  rw [hvar] at hint
  generalize keptValues line.values = values at hvalue hint
  match values with
  | [] => exact Or.inr fun v hv => absurd hv (by simp)
  | [v] => exact Or.inl rfl
  | v :: w :: vs =>
    refine Or.inr fun v' hv n hscaled hlow hhigh => ?_
    obtain rfl : v = v' := Option.some.inj hv
    have hreturn : line.var.getIntValue.toInt = n := hint v rfl n (Or.inr hscaled) hlow hhigh 0
    cases hscaled with
    | @mk ds n k c hn hc =>
      have hk : 1000 ≤ k := by
        simp only [List.mem_cons, Prod.mk.injEq, List.not_mem_nil, or_false] at hc
        omega
      have hrange : -2 ^ 31 ≤ n ∧ n < 2 ^ 31 := by
        constructor
        · nlinarith
        · nlinarith
      rw [ConfigVar.getIntValue_scaled_many hn hc hvalue hlen,
        Int32.toInt_ofInt_of_le hrange.1 hrange.2] at hreturn
      rcases Int.le_total 0 n with hpos | hneg
      · nlinarith
      · nlinarith

/-- The getters return the values that are asked for if and only if they are those that were
kept of the line that is found, and no letter is passed over. -/
theorem returns_iff (hvar : getVar vars name = some line.var)
    (hlen : line.var.value.length < 2 ^ 31) (hne : values ≠ []) :
    Returns vars name values ↔
      values = keptValues line.values ∧ ScaledAlone (keptValues line.values) := by
  have hzero : ∀ v ∈ keptValues line.values, 0 ∉ v := fun v hv => line.zero_notMem hv
  have hlist : ∀ behind i,
      (getListValue vars name i behind).map cstr = (keptValues line.values)[i]? := by
    intro behind i
    unfold getListValue
    rw [hvar]
    exact ConfigVar.getListValue_stored hzero rfl rfl behind i
  constructor
  · intro h
    obtain rfl : values = keptValues line.values :=
      List.ext_getElem? fun i => (h.listValue [] i).symm.trans (hlist [] i)
    exact ⟨rfl, scaledAlone_of_returns hvar hlen h⟩
  · rintro ⟨rfl, halone⟩
    have hvalue : line.var.value = storedValues (keptValues line.values) := rfl
    refine ⟨?_, hlist, fun behind => ?_, fun v hv n hn hlow hhigh defval => ?_,
      fun v hv defval => ?_⟩
    · unfold getListNum
      rw [hvar]
      rfl
    · unfold getValue
      rw [hvar, Option.map_some, Option.map_some, ConfigVar.getValue, hvalue,
        ConfigVar.cstr_stored hzero]
      cases hkept : keptValues line.values with
      | nil => exact absurd hkept hne
      | cons v vs => rfl
    · unfold getIntValue
      rw [hvar]
      simp only
      generalize keptValues line.values = values at hvalue hv halone
      match values with
      | [] => exact absurd hv (by simp)
      | w :: vs =>
        obtain rfl : w = v := Option.some.inj hv
        rcases hn with hplain | hscaled
        · rw [ConfigVar.getIntValue_plain hplain hvalue hlen]
          exact Int32.toInt_ofInt_of_le hlow hhigh
        · cases hscaled with
          | @mk ds m k c hds hc =>
            match vs with
            | [] =>
              rw [ConfigVar.getIntValue_scaled hds hc hvalue hlen]
              exact Int32.toInt_ofInt_of_le hlow hhigh
            | v' :: vs =>
              rw [ConfigVar.getIntValue_scaled_many hds hc hvalue hlen]
              rcases halone with hone | hnone
              · exact absurd hone (by simp)
              · have hzero := hnone _ rfl _ (.mk hds hc) hlow hhigh
                rcases Int.mul_eq_zero.mp hzero with rfl | rfl
                · rw [Int.zero_mul]
                  rfl
                · exact absurd hc (by simp)
    · unfold getBoolValue
      rw [hvar]
      exact ConfigVar.getBoolValue_stored hzero hv hvalue defval

end Config

namespace ConfigFile

variable {file : ConfigFile}

theorem values_eq_none {name : List UInt8}
    (h : file.lines.find? (fun line => line.name.text.isPrefixOf name) = none) :
    file.values name = none := by
  rw [List.find?_eq_none] at h
  unfold values
  rw [Option.map_eq_none_iff, List.find?_eq_none]
  intro line hline heq
  apply h line hline
  rw [of_decide_eq_true heq, List.isPrefixOf_iff_prefix]

/-- If there is room for every line, a name is looked up right if and only if the first line
whose name it begins with has the values that are asked for. -/
theorem answers_iff (file : ConfigFile) (hfits : file.Fits) (name : List UInt8) :
    file.Answers name ↔ file.Finds name := by
  have hvar : Config.getVar (file.lines.map ConfigLine.var) name =
      (file.lines.find? fun line => line.name.text.isPrefixOf name).map ConfigLine.var :=
    List.find?_map ..
  have hanswers : file.Answers name ↔ match file.values name with
      | some values => Config.Returns (file.lines.map ConfigLine.var) name values
      | none => Config.Defaults (file.lines.map ConfigLine.var) name := by
    unfold Answers
    simp only [init_text hfits, true_and]
    exact ⟨fun h => h [], fun h _ => h⟩
  rw [hanswers]
  unfold Finds
  cases hfind : file.lines.find? fun line => line.name.text.isPrefixOf name with
  | none =>
    rw [hfind, Option.map_none] at hvar
    rw [values_eq_none hfind]
    refine iff_of_true ⟨?_, fun behind i => ?_, fun behind => ?_, fun defval => ?_,
      fun defval => ?_⟩ trivial
    · rw [Config.getListNum, hvar]
    · rw [Config.getListValue, hvar, Option.bind_none]
    · rw [Config.getValue, hvar, Option.map_none]
    · rw [Config.getIntValue, hvar]
    · rw [Config.getBoolValue, hvar]
  | some line =>
    rw [hfind, Option.map_some] at hvar
    have hlen : line.var.value.length < 2 ^ 31 :=
      (line.length_stored.trans (hfits line (List.mem_of_find?_eq_some hfind))).trans_lt (by decide)
    simp only
    cases hvalues : file.values name with
    | none =>
      refine iff_of_false (fun h => ?_) fun h => absurd h.1 (by simp)
      have hnone := h.value []
      rw [Config.getValue, hvar] at hnone
      exact absurd hnone (by simp)
    | some values =>
      have hne : values ≠ [] := by
        obtain ⟨line', -, rfl⟩ := Option.map_eq_some_iff.mp hvalues
        exact List.cons_ne_nil _ _
      simp only [Option.some.injEq]
      exact Config.returns_iff hvar hlen hne

/-- The line `name=value`. -/
def wordLine (name value : ConfigWord) : ConfigLine where
  indent := ⟨[], isGap_nil⟩
  name := name
  space := ⟨[], isGap_nil⟩
  first := ⟨⟨[], isGap_nil⟩, .word value⟩
  more := []
  trail := ⟨[], isGap_nil⟩
  ending := [10]
  ending_mem := lineFeed_mem_endings

/-- The lines `a=1` and `ab=2`. -/
def twoNames : ConfigFile where
  lines :=
    [wordLine ⟨[97], by decide, List.all_iff_forall_prop.mp rfl, by decide⟩
        ⟨[49], by decide, List.all_iff_forall_prop.mp rfl, by decide⟩,
      wordLine ⟨[97, 98], by decide, List.all_iff_forall_prop.mp rfl, by decide⟩
        ⟨[50], by decide, List.all_iff_forall_prop.mp rfl, by decide⟩]
  names_nodup := by decide
  endings := by simp [wordLine]

theorem answers_twoNames : twoNames.Answers [97] :=
  (answers_iff twoNames (by decide) [97]).mpr ⟨rfl, Or.inl rfl⟩

/-- Asked for `ab` the getters return the value of `a`, as they do for `ac`, which is not there. -/
theorem not_answers_twoNames : ¬ twoNames.Answers [97, 98] ∧ ¬ twoNames.Answers [97, 99] := by
  constructor
  · intro h
    have hreturns : Config.Returns _ [97, 98] [[50]] := (h []).2
    exact absurd (hreturns.value []) (by decide)
  · intro h
    have hdefaults : Config.Defaults _ [97, 99] := (h []).2
    exact absurd hdefaults.listNum (by decide)

end ConfigFile

end PL
