-- SUMMARY: The addresses of the nodes: from the configuration file into the address table.
import NetworkEtc.PL.Config
import NetworkEtc.PL.ConfigFile

/-!
# The address table

`ReplicatedConfig::Init` reads each address with `CSockAddr::Set`, which copies 21 bytes. The
bytes behind a shorter address are those of the next one, or what lies in memory behind the
last; if there is a `':'` among them the address is passed over, and the one before it is
taken again.
-/

namespace PL

open Library Library.Decimal Library.Printf Netfram

/-- What is in memory that `Init` reads without having written it. -/
structure Leftover where
  /-- `loAddress` -/
  address : CSockAddr
  /-- behind the values of a variable -/
  behindValue : List UInt8
  /-- behind the constant `"0.0.0.0:10000"` -/
  behindConstant : List UInt8
  /-- behind `lacBuffer`, at the call for each of the addresses -/
  behindBuffer : Nat → List UInt8

/-- What `ReplicatedConfig::Init` sets, up to the restart counter. -/
structure AddressTable where
  nodeID : UInt32
  numNodes : Nat
  maoAddresses : Nat → CSockAddr
  mbMultiMode : Bool

namespace ReplicatedConfig

/-- `"paxos.addresses"` -/
def addressesName : List UInt8 := "paxos.addresses".toList.map ascii

/-- `"paxos.nodeID"` -/
def nodeIDName : List UInt8 := "paxos.nodeID".toList.map ascii

/-- `"0.0.0.0:10000"` -/
def anyAddress : List UInt8 := "0.0.0.0:10000".toList.map ascii

/-- The loop of `Init` over the addresses, from address `i` on. -/
def readAddresses (vars : List ConfigVar) (mem : Leftover) :
    Nat → Nat → CSockAddr → (Nat → CSockAddr) → Option (Nat → CSockAddr)
  | 0, _, _, maoAddresses => some maoAddresses
  | n + 1, i, loAddress, maoAddresses => do
    let value ← Config.getListValue vars addressesName i mem.behindValue
    if maxCellSize ≤ i then none
    else
      let loAddress := (loAddress.setText value (mem.behindBuffer i)).2
      readAddresses vars mem n (i + 1) loAddress (Function.update maoAddresses i loAddress)

/-- The start of `ReplicatedConfig::Init`; `STOP_FAIL` is `none`. The table is zero before. -/
def init (vars : List ConfigVar) (mem : Leftover) : Option AddressTable :=
  let nodeID := (Config.getIntValue vars nodeIDName 0).toUInt32
  let numNodes := Config.getListNum vars addressesName
  let zeros : Nat → CSockAddr := fun _ => ⟨⟨0, 0⟩, 0⟩
  if numNodes = 0 then
    let loAddress :=
      (mem.address.setText (anyAddress ++ 0 :: mem.behindConstant) (mem.behindBuffer 0)).2
    some ⟨0, numNodes, Function.update zeros 0 loAddress, false⟩
  else if numNodes ≤ nodeID.toNat then none
  else do
    let maoAddresses ← readAddresses vars mem numNodes 0 mem.address zeros
    let mbMultiMode := (List.range (numNodes - 1)).all fun i =>
      (maoAddresses i).port = (maoAddresses (i + 1)).port
    some ⟨nodeID, numNodes, maoAddresses, mbMultiMode⟩

end ReplicatedConfig

/-! # Configuration lines -/

/-- The text lists the addresses, with blanks around them. -/
inductive Lists : List DottedAddr → List UInt8 → Prop where
  | nil : Lists [] []
  | one {x : DottedAddr} {before : List UInt8} (hbefore : IsGap before) :
    Lists [x] (before ++ x.text)
  | cons {x y : DottedAddr} {xs : List DottedAddr} {before after text : List UInt8}
    (hbefore : IsGap before) (hafter : IsGap after) (h : Lists (y :: xs) text) :
    Lists (x :: y :: xs) (before ++ x.text ++ after ++ ascii ',' :: text)

/-- A line that sets `paxos.addresses`. -/
structure AddressLine where
  addrs : List DottedAddr
  space : List UInt8
  list : List UInt8
  trail : List UInt8
  ending : List UInt8
  space_gap : IsGap space
  lists : Lists addrs list
  trail_gap : IsGap trail
  /-- a line feed, with a carriage return or without, or the end of the file -/
  ending_mem : ending ∈ [[], [10], [13, 10]]

namespace AddressLine

/-- The line up to its last address. -/
def core (line : AddressLine) : List UInt8 :=
  ReplicatedConfig.addressesName ++ line.space ++ ascii '=' :: line.list

def text (line : AddressLine) : List UInt8 := line.core ++ (line.trail ++ line.ending)

/-- Whatever is in memory before, the file of this line is read, and each entry of the table
holds its address. -/
def IsRead (line : AddressLine) : Prop :=
  ∀ (buffer : List UInt8) (mem : Leftover), (Config.init line.text buffer).1 = true ∧
    ∃ table, ReplicatedConfig.init (Config.init line.text buffer).2 mem = some table ∧
      ∀ i x, line.addrs[i]? = some x → table.maoAddresses i = x.addr

end AddressLine

/-- No address is disturbed by the one behind it, nor by what is in memory behind the last, or
it is the same as the one before it. -/
def Undisturbed : Option DottedAddr → List DottedAddr → Prop
  | _, [] => True
  | prev, [x] =>
    x.text.length ≤ 20 ∧ (19 ≤ x.text.length ∨ 14 ≤ x.text.length ∧ prev = some x)
  | prev, x :: y :: xs =>
    x.text.length ≤ 20 ∧ (20 ≤ x.text.length + y.ipText.length ∨ prev = some x) ∧
      Undisturbed (some x) (y :: xs)

/-! # From the line to the values -/

section

variable {x : DottedAddr} {xs : List DottedAddr} {t m l r : List UInt8} {c : UInt8}

theorem isWord_of_mem_text (h : c ∈ x.text) : isWord c = true ∧ c ≠ ascii '"' := by
  have hcases : isDigit c = true ∨ c = ascii '.' ∨ c = ascii ':' := by
    rcases List.mem_append.mp h with h | h
    · exact (DottedAddr.mem_ipText h).imp_right Or.inl
    · rcases List.mem_cons.mp h with h | h
      · exact Or.inr (Or.inr h)
      · exact Or.inl ((numeral_isNumeral _).2 c h)
  rcases hcases with hdigit | rfl | rfl
  · refine ⟨?_, isDigit_ne hdigit rfl⟩
    have hblank : isBlank c = false := by
      rw [isDigit_iff] at hdigit
      simp only [isBlank, decide_eq_false_iff_not, UInt8.le_iff_toNat_le]
      change ¬ (c.toNat ≤ 32 ∨ 128 ≤ c.toNat)
      omega
    simp [isWord, hblank, isDigit_ne hdigit (e := ascii ',') rfl,
      isDigit_ne hdigit (e := ascii '#') rfl, isDigit_ne hdigit (e := ascii '=') rfl]
  · exact ⟨rfl, by decide⟩
  · exact ⟨rfl, by decide⟩

theorem text_ne_nil : x.text ≠ [] := by simp [DottedAddr.text]

theorem head_text (h : isWord c = false) : x.text.head? ≠ some c := by
  intro hhead
  have hword := (isWord_of_mem_text (List.mem_of_mem_head? hhead)).1
  rw [h] at hword
  exact Bool.noConfusion hword

/-- An address is one token. -/
theorem parseToken_text (h : ∀ c ∈ r.head?, isWord c = false) :
    parseToken (x.text ++ r) = some (x.text, r) :=
  parseToken_word text_ne_nil (fun _ hc => (isWord_of_mem_text hc).1)
    (fun hc => (isWord_of_mem_text hc).2 rfl) h

namespace Lists

theorem plain (h : Lists xs t) (hc : c ∈ t) : IsPlain c ∧ isLineEnd c = false := by
  have htext : ∀ {x : DottedAddr}, c ∈ x.text → IsPlain c ∧ isLineEnd c = false := by
    intro x hmem
    obtain ⟨hword, hquote⟩ := isWord_of_mem_text hmem
    exact ⟨isPlain_of_isWord hword hquote, not_isLineEnd_of_isWord hword⟩
  induction h with
  | nil => exact absurd hc List.not_mem_nil
  | one hbefore =>
    rcases List.mem_append.mp hc with hc | hc
    · exact hbefore.plain hc
    · exact htext hc
  | cons hbefore hafter h ih =>
    simp only [List.append_assoc, List.mem_append, List.mem_cons] at hc
    rcases hc with hc | hc | hc | rfl | hc
    · exact hbefore.plain hc
    · exact htext hc
    · exact hafter.plain hc
    · exact ⟨⟨by decide, by decide, by decide⟩, rfl⟩
    · exact ih hc

/-- The list ends with an address. -/
theorem getLast (h : Lists xs t) (hc : c ∈ t.getLast?) : isBlank c = false := by
  induction h with
  | nil => exact absurd hc (by simp)
  | @one x before hbefore =>
    rw [List.getLast?_append_of_ne_nil _ text_ne_nil] at hc
    exact not_isBlank_of_isWord (isWord_of_mem_text (List.mem_of_mem_getLast? hc)).1
  | @cons x y xs before after text hbefore hafter h ih =>
    apply ih
    have hne : text ≠ [] := by cases h <;> simp [text_ne_nil]
    rwa [List.getLast?_append_cons, List.getLast?_cons_of_ne_nil hne] at hc

/-- An address and the comma behind it take ten bytes at least. -/
theorem length_le (h : Lists xs t) : 10 * xs.length ≤ t.length + 1 := by
  have htext : ∀ x : DottedAddr, 9 ≤ x.text.length := by
    intro x
    have hip := x.length_ipText.1
    have hport := x.length_port.1
    rw [x.length_text]
    omega
  induction h with
  | nil => simp
  | @one x before hbefore =>
    have hx := htext x
    simp only [List.length_append, List.length_cons, List.length_nil]
    omega
  | @cons x y xs before after text hbefore hafter h ih =>
    have hx := htext x
    simp only [List.length_append, List.length_cons] at ih ⊢
    omega

/-- The values of a variable that is set to the list. -/
def values (xs : List DottedAddr) : List UInt8 := xs.flatMap fun x => x.text ++ [0]

theorem values_eq (xs : List DottedAddr) : values xs = storedValues (xs.map DottedAddr.text) := by
  rw [values, storedValues, List.flatMap_map]

open Config in
/-- All addresses are taken, and the rest of the line is not. -/
theorem readValues_eq (h : Lists xs t) (hm : ∀ c ∈ m, isBlank c = true) {fuel : Nat}
    (hfuel : t.length < fuel) (var : ConfigVar) :
    readValues fuel (t ++ (m ++ 0 :: r)) var =
      { var with numelem := var.numelem + xs.length, value := var.value ++ values xs } := by
  have hword : ∀ c ∈ (m ++ 0 :: r).head?, isWord c = false := by
    intro c hc
    cases m with
    | nil =>
      cases hc
      rfl
    | cons e m =>
      cases hc
      exact isWord_eq_false (hm _ List.mem_cons_self)
  induction h generalizing fuel var with
  | nil =>
    cases fuel with
    | zero => exact absurd hfuel (Nat.not_lt_zero _)
    | succ fuel =>
      unfold readValues
      rw [List.nil_append, parseToken_blank hm]
      simp [values]
  | @one x before hbefore =>
    have hpos := List.length_pos_iff.mpr (text_ne_nil (x := x))
    rw [List.length_append] at hfuel
    obtain ⟨n, rfl⟩ : ∃ n, fuel = n + 2 := ⟨fuel - 2, by omega⟩
    rw [List.append_assoc, readValues, parseToken_gap hbefore, parseToken_text hword]
    simp only
    rw [if_neg (head_text rfl), readValues, parseToken_blank hm]
    simp [ConfigVar.append, values]
  | @cons x y xs before after text hbefore hafter h ih =>
    have hpos := List.length_pos_iff.mpr (text_ne_nil (x := x))
    rw [List.length_append, List.length_append, List.length_append, List.length_cons] at hfuel
    obtain ⟨n, rfl⟩ : ∃ n, fuel = n + 2 := ⟨fuel - 2, by omega⟩
    have hcomma : ∀ c ∈ (after ++ ascii ',' :: (text ++ (m ++ 0 :: r))).head?,
        isWord c = false := by
      apply hafter.head_append
      intro c hc
      cases hc
      rfl
    have htext : before ++ x.text ++ after ++ ascii ',' :: text ++ (m ++ 0 :: r) =
        before ++ (x.text ++ (after ++ ascii ',' :: (text ++ (m ++ 0 :: r)))) := by simp
    rw [htext, readValues, parseToken_gap hbefore, parseToken_text hcomma]
    simp only
    rw [if_neg (head_text rfl), readValues, parseToken_gap hafter, parseToken_comma]
    simp only
    rw [if_pos (List.head?_cons ..), ih (by omega)]
    simp [ConfigVar.append, values, Nat.add_assoc, Nat.add_comm]

end Lists

end

namespace AddressLine

open ReplicatedConfig

variable {line : AddressLine} {buffer m r : List UInt8} {c : UInt8}

/-- The variable of the line. -/
def vars (line : AddressLine) : List ConfigVar :=
  [⟨addressesName, line.addrs.length, Lists.values line.addrs⟩]

theorem isBlank_rest : ∀ c ∈ line.trail ++ line.ending, isBlank c = true := by
  have hending : ([[], [10], [13, 10]] : List (List UInt8)).all (·.all isBlank) = true := rfl
  intro c hc
  rcases List.mem_append.mp hc with hc | hc
  · exact (line.trail_gap c hc).1
  · exact List.all_eq_true.mp (List.all_eq_true.mp hending _ line.ending_mem) c hc

theorem isWord_name (hc : c ∈ addressesName) : isWord c = true ∧ c ≠ ascii '"' := by
  have hname : (addressesName.all fun c => isWord c && c ≠ ascii '"') = true := rfl
  simpa using List.all_eq_true.mp hname c hc

theorem plain_name (hc : c ∈ addressesName ++ line.space) : IsPlain c ∧ isLineEnd c = false := by
  rcases List.mem_append.mp hc with hc | hc
  · obtain ⟨hword, hquote⟩ := isWord_name hc
    exact ⟨isPlain_of_isWord hword hquote, not_isLineEnd_of_isWord hword⟩
  · exact line.space_gap.plain hc

theorem not_isLineEnd_core (hc : c ∈ line.core) : isLineEnd c = false := by
  rcases List.mem_append.mp hc with hc | hc
  · exact (plain_name hc).2
  · rcases List.mem_cons.mp hc with rfl | hc
    · rfl
    · exact (line.lists.plain hc).2

/-- `fgets` leaves nothing of the line if there is room for it. -/
theorem le_of_not_isLineEnd {n k : Nat} (hk : k ≤ 1022) (hle : k ≤ line.core.length)
    (h : ∀ k ≤ 1022, (∀ c ∈ line.text.take k, c ≠ 10) → k ≤ line.text.length → k ≤ n) :
    k ≤ n := by
  apply h k hk
  · rw [text, List.take_append_of_le_length hle]
    rintro c hc rfl
    exact Bool.noConfusion (not_isLineEnd_core (List.mem_of_mem_take hc))
  · rw [text, List.length_append]
    omega

/-- The whole line sets the variable. -/
theorem readLine_core (hm : ∀ c ∈ m, isBlank c = true) :
    Config.readLine [] (line.core ++ m ++ 0 :: r) = some line.vars := by
  have hequals : ∀ c ∈ (line.space ++ ascii '=' :: (line.list ++ (m ++ 0 :: r))).head?,
      isWord c = false := by
    apply line.space_gap.head_append
    intro c hc
    cases hc
    rfl
  have htext : line.core ++ m ++ 0 :: r =
      addressesName ++ (line.space ++ ascii '=' :: (line.list ++ (m ++ 0 :: r))) := by
    simp [core]
  rw [htext, Config.readLine, parseToken_word (by decide)
    (fun c hc => (isWord_name hc).1) (fun hc => (isWord_name hc).2 rfl) hequals]
  simp only
  rw [parseToken_gap line.space_gap, parseToken_equals]
  simp only
  rw [if_pos (List.head?_cons ..),
    line.lists.readValues_eq hm (by simp only [List.length_append]; omega)]
  simp [vars]

theorem text_ne_nil : line.text ≠ [] := by simp [text, core]

theorem init_text (h : line.core.length ≤ 1022) (buffer : List UInt8) :
    Config.init line.text buffer = (true, line.vars) := by
  obtain ⟨n, -, hn, hline, hgets⟩ := Config.fgets_eq text_ne_nil
  have hle : line.core.length ≤ n := le_of_not_isLineEnd h le_rfl hline
  obtain ⟨r, hr⟩ := Config.readInto_eq buffer ((List.length_take_le n line.text).trans hn)
  unfold Config.init Config.readFile
  rw [hgets]
  simp only [hr]
  have htake : line.text.take n =
      line.core ++ (line.trail ++ line.ending).take (n - line.core.length) := by
    rw [text, List.take_append, List.take_of_length_le hle]
  rw [htake, readLine_core fun c hc => isBlank_rest c (List.mem_of_mem_take hc)]
  simp only
  apply Config.readFile_blank
  intro c hc
  rw [text, List.drop_append, List.drop_eq_nil_of_le hle, List.nil_append] at hc
  exact isBlank_rest c (List.mem_of_mem_drop hc)

/-- Of a longer line `fgets` leaves the end, which is no line on its own. -/
theorem init_cut (h : 1022 < line.core.length) (buffer : List UInt8) :
    (Config.init line.text buffer).1 = false := by
  obtain ⟨n, -, hn, hline, hgets⟩ := Config.fgets_eq text_ne_nil
  obtain rfl : n = 1022 := hn.antisymm (le_of_not_isLineEnd le_rfl h.le hline)
  obtain ⟨r, hr⟩ := Config.readInto_eq buffer ((List.length_take_le 1022 line.text).trans hn)
  unfold Config.init Config.readFile
  rw [hgets]
  simp only [hr]
  rw [text, List.take_append_of_le_length h.le, List.drop_append_of_le_length h.le]
  rcases Nat.lt_or_ge (addressesName ++ line.space).length 1022 with hlt | hge
  · have hcore : line.core = (addressesName ++ line.space ++ [ascii '=']) ++ line.list := by
      simp [core]
    have hlength := congrArg List.length hcore
    simp only [List.length_append, List.length_singleton] at hlength hlt
    have hdrop : line.core.drop 1022 =
        line.list.drop (1022 - (addressesName ++ line.space ++ [ascii '=']).length) := by
      rw [hcore, List.drop_append, List.drop_eq_nil_of_le, List.nil_append]
      simp only [List.length_append, List.length_singleton]
      omega
    have hlast : ∃ c ∈ line.core.drop 1022, isBlank c = false := by
      have hsame : (line.core.drop 1022).getLast? = line.list.getLast? := by
        rw [hdrop, List.getLast?_drop, if_neg]
        simp only [List.length_append, List.length_singleton]
        omega
      have hne : line.core.drop 1022 ≠ [] := by
        rw [ne_eq, List.drop_eq_nil_iff]
        omega
      refine ⟨_, List.getLast_mem hne, line.lists.getLast ?_⟩
      rw [← hsame, List.getLast?_eq_some_getLast hne]
      rfl
    split
    · rfl
    · refine Config.readFile_plain (fun c hc => ?_) (fun c hc => ?_) hlast isBlank_rest ?_
      · rw [hdrop] at hc
        exact (line.lists.plain (List.mem_of_mem_drop hc)).1
      · exact not_isLineEnd_core (List.mem_of_mem_drop hc)
      · simp only [List.length_append, List.length_drop]
        omega
  · have hname : line.core.take 1022 = (addressesName ++ line.space).take 1022 :=
      List.take_append_of_le_length hge
    rw [hname, ← List.append_nil ((addressesName ++ line.space).take 1022),
      Config.readLine_plain (fun c hc => (plain_name (List.mem_of_mem_take hc)).1)
        (fun c hc => (plain_name (List.mem_of_mem_take hc)).2) _ (by simp)]
    refine ⟨ascii 'p', ?_, rfl⟩
    rw [List.take_append]
    exact List.mem_append_left _ (by decide)

/-! # The loop over the addresses -/

/-- What is in `loAddress` after address `i`, the first of those left. -/
def landing (behindValue : List UInt8) (behindBuffer : Nat → List UInt8) (i : Nat)
    (loAddress : CSockAddr) (xs : List DottedAddr) : CSockAddr :=
  (loAddress.setText (Lists.values xs ++ 0 :: behindValue) (behindBuffer i)).2

/-- What is in `loAddress` after each address, from address `i` on. -/
def landed (behindValue : List UInt8) (behindBuffer : Nat → List UInt8) :
    Nat → CSockAddr → List DottedAddr → List CSockAddr
  | _, _, [] => []
  | i, loAddress, x :: xs =>
    let loAddress := landing behindValue behindBuffer i loAddress (x :: xs)
    loAddress :: landed behindValue behindBuffer (i + 1) loAddress xs

section

variable {mem : Leftover} {i : Nat} {loAddress : CSockAddr} {pre xs : List DottedAddr}

theorem zero_notMem_text {x : DottedAddr} : 0 ∉ x.text := by
  intro hmem
  exact absurd (isWord_of_mem_text hmem).1 (by decide)

theorem skipValues_values :
    ConfigVar.skipValues pre.length (Lists.values (pre ++ xs) ++ r) = Lists.values xs ++ r := by
  have hzero : ∀ v ∈ (pre ++ xs).map DottedAddr.text, 0 ∉ v := by
    intro v hv
    obtain ⟨x, -, rfl⟩ := List.mem_map.mp hv
    exact zero_notMem_text
  rw [Lists.values_eq, Lists.values_eq, ConfigVar.skipValues_stored hzero (by simp),
    List.map_append, List.drop_left' (List.length_map ..)]

theorem getVar_addresses : Config.getVar line.vars addressesName =
    some ⟨addressesName, line.addrs.length, Lists.values line.addrs⟩ := rfl

/-- The loop puts each into its entry. -/
theorem readAddresses_landed (pre : List DottedAddr) (haddrs : line.addrs = pre ++ xs)
    (hlen : line.addrs.length ≤ maxCellSize) (loAddress : CSockAddr)
    (maoAddresses : Nat → CSockAddr) :
    ∃ table, readAddresses line.vars mem xs.length pre.length loAddress maoAddresses =
        some table ∧ (∀ k < pre.length, table k = maoAddresses k) ∧
      ∀ j, (landed mem.behindValue mem.behindBuffer pre.length loAddress xs)[j]? =
        if j < xs.length then some (table (pre.length + j)) else none := by
  induction xs generalizing pre loAddress maoAddresses with
  | nil => exact ⟨maoAddresses, rfl, fun _ _ => rfl, fun j => by simp [landed]⟩
  | cons x xs ih =>
    have hlength := congrArg List.length haddrs
    rw [List.length_append, List.length_cons] at hlength
    have hvalue : Config.getListValue line.vars addressesName pre.length mem.behindValue =
        some (Lists.values (x :: xs) ++ 0 :: mem.behindValue) := by
      unfold Config.getListValue ConfigVar.getListValue
      rw [getVar_addresses, Option.bind_some]
      simp only
      rw [if_neg (by omega), haddrs, skipValues_values]
    obtain ⟨table, hrun, hbefore, hentries⟩ := ih (pre ++ [x]) (by simp [haddrs])
      (landing mem.behindValue mem.behindBuffer pre.length loAddress (x :: xs))
      (Function.update maoAddresses pre.length
        (landing mem.behindValue mem.behindBuffer pre.length loAddress (x :: xs)))
    rw [List.length_append, List.length_singleton] at hrun hbefore hentries
    refine ⟨table, ?_, ?_, ?_⟩
    · rw [List.length_cons, readAddresses, hvalue]
      simp only [Option.bind_eq_bind, Option.bind_some]
      rw [if_neg (by omega)]
      exact hrun
    · intro k hk
      rw [hbefore k (Nat.lt_succ_of_lt hk), Function.update_of_ne hk.ne]
    · intro j
      cases j with
      | zero =>
        rw [List.length_cons, if_pos (Nat.succ_pos _), Nat.add_zero, hbefore _ (Nat.lt_succ_self _),
          Function.update_self]
        rfl
      | succ j =>
        simp only [List.length_cons, Nat.add_lt_add_iff_right]
        rw [← Nat.add_assoc, Nat.add_right_comm, ← hentries j]
        rfl

/-- A line with room is read if each address is in `loAddress` after its turn. -/
theorem isRead_iff_landed (h : line.core.length ≤ 1022) : line.IsRead ↔
    ∀ behindValue behindBuffer loAddress,
      landed behindValue behindBuffer 0 loAddress line.addrs = line.addrs.map DottedAddr.addr := by
  have hle : line.addrs.length ≤ maxCellSize := by
    have hlength := line.lists.length_le
    simp only [core, List.length_append, List.length_cons] at h
    change _ ≤ 256
    omega
  have hrun : ∀ mem, ∃ table, ReplicatedConfig.init line.vars mem = some table ∧
      ∀ j, (landed mem.behindValue mem.behindBuffer 0 mem.address line.addrs)[j]? =
        if j < line.addrs.length then some (table.maoAddresses j) else none := by
    intro mem
    have hnodeID : (Config.getIntValue line.vars nodeIDName 0).toUInt32.toNat = 0 := rfl
    have hnumNodes : Config.getListNum line.vars addressesName = line.addrs.length := rfl
    unfold ReplicatedConfig.init
    simp only [hnodeID, hnumNodes]
    split
    · next hzero =>
      refine ⟨_, rfl, fun j => ?_⟩
      rw [List.eq_nil_of_length_eq_zero hzero]
      simp [landed]
    · next hne =>
      rw [if_neg (Nat.not_le.mpr (Nat.pos_of_ne_zero hne))]
      obtain ⟨table, hread, -, hentries⟩ := readAddresses_landed [] rfl hle
        mem.address fun _ => ⟨⟨0, 0⟩, 0⟩
      rw [List.length_nil] at hread hentries
      rw [hread]
      exact ⟨_, rfl, fun j => by simpa using hentries j⟩
  constructor
  · intro hread behindValue behindBuffer loAddress
    obtain ⟨table, htable, hentries⟩ := hrun ⟨loAddress, behindValue, [], behindBuffer⟩
    obtain ⟨-, table', htable', hread'⟩ := hread [] ⟨loAddress, behindValue, [], behindBuffer⟩
    rw [init_text h] at htable'
    obtain rfl := Option.some.inj (htable.symm.trans htable')
    apply List.ext_getElem?
    intro j
    rw [hentries, List.getElem?_map]
    split
    · next hj =>
      have hget := List.getElem?_eq_getElem hj
      rw [hget, Option.map_some, hread' j _ hget]
    · next hj => simp [List.getElem?_eq_none (Nat.not_lt.mp hj)]
  · intro hlanded buffer mem
    obtain ⟨table, htable, hentries⟩ := hrun mem
    rw [init_text h]
    refine ⟨rfl, table, htable, fun j x hx => ?_⟩
    have hj := hentries j
    rw [hlanded, List.getElem?_map, hx, if_pos (List.getElem?_eq_some_iff.mp hx).1] at hj
    exact (Option.some.inj hj).symm

end

end AddressLine

/-! # What stands behind an address -/

section

variable {prev : Option DottedAddr} {x y : DottedAddr} {xs : List DottedAddr}
  {rest behind : List UInt8} {i : Nat}

/-- What `loAddress` can be: the address before, if there is one. -/
def Holds (prev : Option DottedAddr) (loAddress : CSockAddr) : Prop :=
  ∀ z, prev = some z → loAddress = z.addr

theorem exists_holds (prev : Option DottedAddr) : ∃ loAddress, Holds prev loAddress := by
  cases prev with
  | none => exact ⟨⟨⟨0, 0⟩, 0⟩, by simp [Holds]⟩
  | some z => exact ⟨z.addr, by simp [Holds]⟩

/-- It may be any other address, unless the one before is the same. -/
theorem exists_holds_ne (h : prev ≠ some x) :
    ∃ loAddress, Holds prev loAddress ∧ loAddress ≠ x.addr := by
  cases prev with
  | none =>
    refine ⟨⟨⟨0, 0⟩, 0⟩, by simp [Holds], fun heq => ?_⟩
    exact absurd (congrArg CSockAddr.family heq) (by decide : (0 : UInt16) ≠ afInet)
  | some z =>
    refine ⟨z.addr, by simp [Holds], fun heq => ?_⟩
    exact h (congrArg some (DottedAddr.addr_injective heq))

/-- The port is wrong if anything is taken for it. -/
theorem port_mul_ne : { x.addr with port := x.port * 10 } ≠ x.addr := by
  intro heq
  have hport : x.port * 10 = x.port := congrArg (fun addr : CSockAddr => addr.port) heq
  have hne : x.port.toNat ≠ 0 := fun hzero => x.port_ne_zero (UInt16.toNat_inj.mp hzero)
  have hlt := x.port.toNat_lt
  have hnat := congrArg UInt16.toNat hport
  rw [UInt16.toNat_mul] at hnat
  change x.port.toNat * 10 % 2 ^ 16 = x.port.toNat at hnat
  omega

theorem length_text_le : x.text.length ≤ 21 := by
  have hip := x.length_ipText.2
  have hport := x.length_port.2
  rw [x.length_text]
  omega

theorem nine_le_length_text : 9 ≤ x.text.length := by
  have hip := x.length_ipText.1
  have hport := x.length_port.1
  rw [x.length_text]
  omega

/-- An address of 21 characters is not read. -/
theorem length_le_of_read
    (h : ∀ loAddress, Holds prev loAddress → ∀ behind,
      (loAddress.setText (x.text ++ 0 :: rest) behind).2 = x.addr) : x.text.length ≤ 20 := by
  by_contra hlen
  have hlen' : x.text.length = 21 := by
    have hle := length_text_le (x := x)
    omega
  obtain ⟨loAddress, hholds⟩ := exists_holds prev
  have hread := h loAddress hholds [ascii '0']
  rw [DottedAddr.setText_long hlen'] at hread
  exact port_mul_ne hread

/-- An address with another one behind it. -/
theorem setText_next_iff :
    (∀ loAddress, Holds prev loAddress → ∀ behind,
      (loAddress.setText (x.text ++ 0 :: (y.text ++ rest)) behind).2 = x.addr) ↔
    x.text.length ≤ 20 ∧ (20 ≤ x.text.length + y.ipText.length ∨ prev = some x) := by
  have hx := nine_le_length_text (x := x)
  have hy := y.length_ipText.1
  have hfar : ∀ j, x.text.length + j < 15 → (y.text ++ rest)[j]? ≠ some (ascii ':') := by
    intro j hj hget
    have htake : ascii ':' ∈ (y.text ++ rest).take 7 := by
      apply List.mem_of_getElem? (i := j)
      rw [List.getElem?_take, if_pos (by omega), hget]
    exact absurd (DottedAddr.colon_mem_take.mp htake) (by omega)
  have hskip : x.text.length ≤ 20 → ¬ 20 ≤ x.text.length + y.ipText.length →
      ∀ (loAddress : CSockAddr) (behind : List UInt8),
        loAddress.setText (x.text ++ 0 :: (y.text ++ rest)) behind = (-1, loAddress) := by
    intro hlen hnear loAddress behind
    apply DottedAddr.setText_skip hlen (DottedAddr.colon_mem_take.mpr _) hfar
    omega
  constructor
  · intro h
    have hlen := length_le_of_read h
    refine ⟨hlen, ?_⟩
    by_contra hnot
    rw [not_or] at hnot
    obtain ⟨loAddress, hholds, hne⟩ := exists_holds_ne hnot.2
    have hread := h loAddress hholds []
    rw [hskip hlen hnot.1] at hread
    exact hne hread
  · rintro ⟨hlen, hcase⟩ loAddress hholds behind
    by_cases hfits : 20 ≤ x.text.length + y.ipText.length
    · rw [DottedAddr.setText_read hlen]
      rw [DottedAddr.colon_mem_take]
      omega
    · rw [hskip hlen hfits]
      exact hholds x (hcase.resolve_left hfits)

/-- The last address. -/
theorem setText_last_iff :
    (∀ loAddress, Holds prev loAddress → ∀ behindValue behind,
      (loAddress.setText (x.text ++ 0 :: 0 :: behindValue) behind).2 = x.addr) ↔
    x.text.length ≤ 20 ∧ (19 ≤ x.text.length ∨ 14 ≤ x.text.length ∧ prev = some x) := by
  constructor
  · intro h
    have hlen : x.text.length ≤ 20 :=
      length_le_of_read fun loAddress hholds behind => h loAddress hholds [] behind
    refine ⟨hlen, ?_⟩
    by_contra hnot
    rw [not_or, not_and_or] at hnot
    obtain ⟨hshort, hnot⟩ := hnot
    by_cases hgarbled : x.text.length ≤ 13
    · obtain ⟨loAddress, hholds⟩ := exists_holds prev
      have hread := h loAddress hholds [ascii ':'] []
      rw [DottedAddr.setText_garbled hgarbled] at hread
      exact x.port_ne_zero (congrArg (fun addr : CSockAddr => addr.port) hread).symm
    · obtain ⟨loAddress, hholds, hne⟩ :=
        exists_holds_ne (hnot.resolve_left (not_not_intro (by omega)))
      have hread := h loAddress hholds [ascii ':'] []
      rw [DottedAddr.setText_skip hlen] at hread
      · exact hne hread
      · obtain ⟨n, hn⟩ : ∃ n, 20 - x.text.length = n + 2 := ⟨18 - x.text.length, by omega⟩
        rw [hn]
        simp
      · intro j hj
        obtain rfl : j = 0 := by omega
        exact by decide
  · rintro ⟨hlen, hcase⟩ loAddress hholds behindValue behind
    by_cases hcolon : ascii ':' ∈ (0 :: behindValue).take (20 - x.text.length)
    · rcases hcase with hlong | ⟨hmiddle, rfl⟩
      · have htake : (0 :: behindValue).take (20 - x.text.length) <+: [0] := by
          obtain hn | hn : 20 - x.text.length = 0 ∨ 20 - x.text.length = 1 := by omega
          · simp [hn]
          · simp [hn]
        exact absurd (htake.mem hcolon) (by decide)
      · rw [DottedAddr.setText_skip hlen hcolon]
        · exact hholds x rfl
        · intro j hj
          obtain rfl : j = 0 := by omega
          exact by simp [ascii]
    · rw [DottedAddr.setText_read hlen hcolon]

open AddressLine in
/-- The addresses are all read if none is disturbed. -/
theorem landed_iff :
    (∀ behindValue behindBuffer loAddress, Holds prev loAddress →
      landed behindValue behindBuffer i loAddress xs = xs.map DottedAddr.addr) ↔
    Undisturbed prev xs := by
  -- the first address is one matter, the others another
  have hcons : ∀ {prev : Option DottedAddr} {x : DottedAddr} {xs : List DottedAddr} {i : Nat},
      (∀ behindValue behindBuffer loAddress, Holds prev loAddress →
        landed behindValue behindBuffer i loAddress (x :: xs) = (x :: xs).map DottedAddr.addr) ↔
      (∀ behindValue behindBuffer loAddress, Holds prev loAddress →
        landing behindValue behindBuffer i loAddress (x :: xs) = x.addr) ∧
      ∀ behindValue behindBuffer loAddress, Holds (some x) loAddress →
        landed behindValue behindBuffer (i + 1) loAddress xs = xs.map DottedAddr.addr := by
    intro prev x xs i
    simp only [landed, List.map_cons, List.cons.injEq]
    constructor
    · intro h
      refine ⟨fun behindValue behindBuffer loAddress hholds =>
        (h behindValue behindBuffer loAddress hholds).1, ?_⟩
      intro behindValue behindBuffer loAddress hholds
      obtain ⟨before, hbefore⟩ := exists_holds prev
      obtain ⟨hx, hxs⟩ := h behindValue behindBuffer before hbefore
      rwa [hx, ← hholds x rfl] at hxs
    · rintro ⟨hx, hxs⟩ behindValue behindBuffer loAddress hholds
      have hland := hx behindValue behindBuffer loAddress hholds
      refine ⟨hland, hxs behindValue behindBuffer _ ?_⟩
      simp [Holds, hland]
  induction xs generalizing prev i with
  | nil => simp [landed, Undisturbed]
  | cons x xs ih =>
    refine hcons.trans ((and_congr_right' ih).trans ?_)
    cases xs with
    | nil =>
      have hvalues : ∀ behindValue, Lists.values [x] ++ 0 :: behindValue =
          x.text ++ 0 :: 0 :: behindValue := by simp [Lists.values]
      simp only [landing, hvalues, Undisturbed, and_true, ← setText_last_iff]
      exact ⟨fun h loAddress hholds behindValue behind => h behindValue (fun _ => behind) _ hholds,
        fun h behindValue behindBuffer loAddress hholds => h loAddress hholds behindValue _⟩
    | cons y xs =>
      have hvalues : ∀ behindValue, Lists.values (x :: y :: xs) ++ 0 :: behindValue =
          x.text ++ 0 :: (y.text ++ (0 :: Lists.values xs ++ 0 :: behindValue)) := by
        simp [Lists.values]
      simp only [landing, hvalues]
      rw [Undisturbed, ← and_assoc]
      refine and_congr_left' ⟨fun h => ?_, fun h behindValue behindBuffer loAddress hholds => ?_⟩
      · apply setText_next_iff.mp
        exact fun loAddress hholds behind => h [] (fun _ => behind) loAddress hholds
      · exact setText_next_iff.mpr h loAddress hholds _

end

open AddressLine in
/-- A line is read if it is not cut, and no address is disturbed. -/
theorem AddressLine.isRead_iff (line : AddressLine) :
    line.IsRead ↔ line.core.length ≤ 1022 ∧ Undisturbed none line.addrs := by
  constructor
  · intro hread
    have hcore : line.core.length ≤ 1022 := by
      by_contra hlong
      have hfalse := init_cut (Nat.lt_of_not_le hlong) []
      rw [(hread [] ⟨⟨⟨0, 0⟩, 0⟩, [], [], fun _ => []⟩).1] at hfalse
      cases hfalse
    refine ⟨hcore, (landed_iff (i := 0)).mp fun behindValue behindBuffer loAddress _ => ?_⟩
    exact (isRead_iff_landed hcore).mp hread behindValue behindBuffer loAddress
  · rintro ⟨hcore, hundisturbed⟩
    apply (isRead_iff_landed hcore).mpr
    intro behindValue behindBuffer loAddress
    apply landed_iff.mpr hundisturbed
    simp [Holds]

/-- `10.0.0.1:80` and `10.0.0.2:80` -/
def twoShort : List DottedAddr :=
  [⟨10, 0, 0, 1, 80, by decide⟩, ⟨10, 0, 0, 2, 80, by decide⟩]

/-- `paxos.addresses=10.0.0.1:80,10.0.0.2:80` -/
def twoShortLine : AddressLine where
  addrs := twoShort
  space := []
  list := "10.0.0.1:80,10.0.0.2:80".toList.map ascii
  trail := []
  ending := [10]
  space_gap := isGap_nil
  lists := Lists.cons isGap_nil isGap_nil (Lists.one isGap_nil)
  trail_gap := isGap_nil
  ending_mem := lineFeed_mem_endings

/-- The second address keeps the first one from being read. -/
theorem not_isRead_twoShortLine : ¬ twoShortLine.IsRead := by
  intro hread
  obtain ⟨-, table, htable, hentries⟩ := hread [] ⟨⟨⟨0, 0⟩, 0⟩, [], [], fun _ => []⟩
  have hfirst := hentries 0 _ rfl
  have hzero : (ReplicatedConfig.init (Config.init twoShortLine.text []).2
      ⟨⟨⟨0, 0⟩, 0⟩, [], [], fun _ => []⟩).map (fun table => table.maoAddresses 0) =
        some ⟨⟨0, 0⟩, 0⟩ := by decide +kernel
  rw [htable, Option.map_some, hfirst] at hzero
  exact absurd (Option.some.inj hzero) (by decide)

end PL
