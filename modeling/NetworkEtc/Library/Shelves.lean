-- SUMMARY: Doubly linked lists and chains, one for each key, that file the members of a set.
import NetworkEtc.Library.Links
import Mathlib.Data.List.Basic
import Mathlib.Data.List.Nodup

/-!
# Shelves

`Shelved next prev head tail key P` says that every member of `P` stands in exactly one
doubly linked list, that of its key, and that the lists hold nothing else. `Chained` is
the same for lists that are linked one way only. The laws speak about what an operation
does to the links of members, so that it does not matter what it does elsewhere.
-/

namespace Library

variable {α κ : Type}

/-! # One list -/

/-- The cells of `l`, linked both ways. -/
structure DList (next prev : α → Option α) (head tail : Option α) (l : List α) : Prop where
  forth : Seg next head l none
  back : Seg prev tail l.reverse none
  nodup : l.Nodup

namespace DList

variable {next prev next' prev' : α → Option α} {head tail : Option α} {l l₁ l₂ m : List α}
  {a b z : α}

theorem nil : DList next prev none none [] := ⟨rfl, rfl, List.nodup_nil⟩

theorem reverse (h : DList next prev head tail l) : DList prev next tail head l.reverse :=
  ⟨h.back, by simpa using h.forth, List.nodup_reverse.mpr h.nodup⟩

theorem congr (h : DList next prev head tail l) (hnext : ∀ z ∈ l, next' z = next z)
    (hprev : ∀ z ∈ l, prev' z = prev z) : DList next' prev' head tail l :=
  ⟨h.forth.congr hnext, h.back.congr fun z hz => hprev z (List.mem_reverse.mp hz), h.nodup⟩

theorem unique (h : DList next prev head tail l) (h' : DList next prev head tail m) : l = m :=
  h.forth.unique h'.forth

theorem head_eq (h : DList next prev head tail l) : head = l.head? := h.forth.start_none

theorem tail_eq (h : DList next prev head tail l) : tail = l.getLast? := by
  rw [h.back.start_none, List.head?_reverse]

theorem next_eq (h : DList next prev head tail (l₁ ++ a :: l₂)) : next a = l₂.head? :=
  h.forth.next_eq

theorem prev_eq (h : DList next prev head tail (l₁ ++ a :: l₂)) : prev a = l₁.getLast? := by
  have hback := h.back
  simp only [List.reverse_append, List.reverse_cons, List.append_assoc, List.singleton_append]
    at hback
  rw [hback.next_eq, List.head?_reverse]

/-- Put `a` in front. -/
theorem push [DecidableEq α] (h : DList next prev head tail l) (ha : a ∉ l) (hn : next' a = head)
    (hp : prev' a = none) (hnext : ∀ z ∈ l, next' z = next z)
    (hprev : ∀ z ∈ l, prev' z = if head = some z then some a else prev z) :
    DList next' prev' (some a) (tail.or (some a)) (a :: l) := by
  refine ⟨h.forth.push hn hnext, ?_, List.nodup_cons.mpr ⟨ha, h.nodup⟩⟩
  rw [List.reverse_cons]
  refine seg_concat.mpr ⟨?_, hp⟩
  cases l with
  | nil =>
    have htail : tail = none := h.back
    simp [htail]
  | cons x l =>
    have hhead : head = some x := h.head_eq
    have hx : x ∉ l := (List.nodup_cons.mp h.nodup).1
    have hback := h.back
    rw [List.reverse_cons] at hback ⊢
    obtain ⟨hfront, -⟩ := seg_concat.mp hback
    have htail : tail.or (some a) = tail := by
      rw [h.tail_eq, List.getLast?_cons]
      rfl
    rw [htail]
    refine seg_concat.mpr ⟨hfront.congr ?_, ?_⟩
    · intro z hz
      have hzl : z ∈ l := List.mem_reverse.mp hz
      rw [hprev z (List.mem_cons_of_mem x hzl), if_neg]
      rintro heq
      rw [hhead] at heq
      cases heq
      exact hx hzl
    · rw [hprev x (List.mem_cons_self ..), if_pos hhead]

/-- One direction of a removal. -/
private theorem forth_remove [DecidableEq α] (h : DList next prev head tail (l₁ ++ a :: l₂))
    (hnext : ∀ z ∈ l₁ ++ l₂, next' z = if prev a = some z then next a else next z) :
    Seg next' (if head = some a then next a else head) (l₁ ++ l₂) none := by
  have hnodup := h.nodup
  rw [List.nodup_append] at hnodup
  obtain ⟨h₁, h₂, hdisj⟩ := hnodup
  have hhead : head = some a ↔ l₁ = [] := by
    rw [h.head_eq]
    cases l₁ with
    | nil => simp
    | cons x l₁ =>
      have hne : x ≠ a := hdisj x (by simp) a (by simp)
      simpa using hne
  apply h.forth.remove
  · intro hnil
    rw [if_pos (hhead.mpr hnil)]
  · intro hne
    rw [if_neg fun heq => hne (hhead.mp heq)]
  · intro z hz
    have hmem : z ∈ l₁ := List.mem_of_getLast? hz
    rw [hnext z (List.mem_append_left l₂ hmem), if_pos]
    rw [h.prev_eq]
    exact hz
  · intro z hz
    rw [hnext z (List.mem_append_left l₂ (List.dropLast_subset _ hz)), if_neg]
    rw [h.prev_eq]
    intro hlast
    have hcat := List.dropLast_append_getLast? z hlast
    rw [← hcat, List.nodup_append] at h₁
    exact h₁.2.2 z hz z (by simp) rfl
  · intro z hz
    rw [hnext z (List.mem_append_right l₁ hz), if_neg]
    rw [h.prev_eq]
    intro hlast
    exact hdisj z (List.mem_of_getLast? hlast) z (List.mem_cons_of_mem a hz) rfl

/-- Take `a` out, wherever it is. -/
theorem remove [DecidableEq α] (h : DList next prev head tail (l₁ ++ a :: l₂))
    (hnext : ∀ z ∈ l₁ ++ l₂, next' z = if prev a = some z then next a else next z)
    (hprev : ∀ z ∈ l₁ ++ l₂, prev' z = if next a = some z then prev a else prev z) :
    DList next' prev' (if head = some a then next a else head)
      (if tail = some a then prev a else tail) (l₁ ++ l₂) := by
  refine ⟨h.forth_remove hnext, ?_, ?_⟩
  · have hback := h.reverse
    simp only [List.reverse_append, List.reverse_cons, List.append_assoc, List.singleton_append]
      at hback ⊢
    apply hback.forth_remove
    intro z hz
    apply hprev
    simpa [or_comm] using hz
  · exact h.nodup.sublist ((List.Sublist.refl l₁).append (List.sublist_cons_self a l₂))

end DList

/-! # A list for each key -/

/-- The members of `P`, each in the list of its key. -/
def Shelved (next prev : α → Option α) (head tail : κ → Option α) (key : α → κ)
    (P : α → Prop) : Prop :=
  ∀ k, ∃ l, DList next prev (head k) (tail k) l ∧ ∀ a, a ∈ l ↔ P a ∧ key a = k

namespace Shelved

variable {next prev next' prev' : α → Option α} {head tail head' tail' : κ → Option α}
  {key key' : α → κ} {P Q : α → Prop} {a b : α} {k : κ}

theorem empty (hhead : ∀ k, head k = none) (htail : ∀ k, tail k = none) (hP : ∀ a, ¬ P a) :
    Shelved next prev head tail key P := by
  intro k
  rw [hhead k, htail k]
  exact ⟨[], DList.nil, by simp [hP]⟩

theorem congr (h : Shelved next prev head tail key P)
    (hnext : ∀ z, P z → next' z = next z) (hprev : ∀ z, P z → prev' z = prev z)
    (hkey : ∀ z, P z → key' z = key z) (hhead : ∀ k, head' k = head k)
    (htail : ∀ k, tail' k = tail k) (hP : ∀ z, Q z ↔ P z) :
    Shelved next' prev' head' tail' key' Q := by
  intro k
  obtain ⟨l, hl, hmem⟩ := h k
  rw [hhead k, htail k]
  refine ⟨l, hl.congr (fun z hz => hnext z ((hmem z).mp hz).1)
    (fun z hz => hprev z ((hmem z).mp hz).1), fun z => ?_⟩
  rw [hmem z, hP z]
  constructor
  · rintro ⟨hz, hk⟩
    exact ⟨hz, by rw [hkey z hz, hk]⟩
  · rintro ⟨hz, hk⟩
    exact ⟨hz, by rw [← hkey z hz, hk]⟩

theorem head_mem (h : Shelved next prev head tail key P) (hk : head k = some a) :
    P a ∧ key a = k := by
  obtain ⟨l, hl, hmem⟩ := h k
  rw [← hmem a]
  rw [hl.head_eq] at hk
  exact List.mem_of_head? hk

theorem tail_mem (h : Shelved next prev head tail key P) (hk : tail k = some a) :
    P a ∧ key a = k := by
  obtain ⟨l, hl, hmem⟩ := h k
  rw [← hmem a]
  rw [hl.tail_eq] at hk
  exact List.mem_of_getLast? hk

theorem head_eq_none (h : Shelved next prev head tail key P) :
    head k = none ↔ ∀ a, P a → key a ≠ k := by
  obtain ⟨l, hl, hmem⟩ := h k
  rw [hl.head_eq, List.head?_eq_none_iff, List.eq_nil_iff_forall_not_mem]
  simp [hmem]

theorem tail_eq_none (h : Shelved next prev head tail key P) :
    tail k = none ↔ ∀ a, P a → key a ≠ k := by
  obtain ⟨l, hl, hmem⟩ := h k
  rw [hl.tail_eq, List.getLast?_eq_none_iff, List.eq_nil_iff_forall_not_mem]
  simp [hmem]

theorem next_mem (h : Shelved next prev head tail key P) (ha : P a) (hn : next a = some b) :
    P b ∧ key b = key a ∧ b ≠ a := by
  obtain ⟨l, hl, hmem⟩ := h (key a)
  obtain ⟨l₁, l₂, rfl⟩ := List.append_of_mem ((hmem a).mpr ⟨ha, rfl⟩)
  rw [hl.next_eq] at hn
  have hb : b ∈ l₂ := List.mem_of_head? hn
  obtain ⟨hPb, hkb⟩ := (hmem b).mp (by simp [hb])
  refine ⟨hPb, hkb, ?_⟩
  rintro rfl
  have hnodup := hl.nodup
  simp [List.nodup_append, hb] at hnodup

theorem prev_mem (h : Shelved next prev head tail key P) (ha : P a) (hp : prev a = some b) :
    P b ∧ key b = key a ∧ b ≠ a := by
  obtain ⟨l, hl, hmem⟩ := h (key a)
  obtain ⟨l₁, l₂, rfl⟩ := List.append_of_mem ((hmem a).mpr ⟨ha, rfl⟩)
  rw [hl.prev_eq] at hp
  have hb : b ∈ l₁ := List.mem_of_getLast? hp
  obtain ⟨hPb, hkb⟩ := (hmem b).mp (by simp [hb])
  refine ⟨hPb, hkb, ?_⟩
  rintro rfl
  have hnodup := hl.nodup
  rw [List.nodup_append] at hnodup
  exact hnodup.2.2 b hb b (by simp) rfl

/-- A member has neighbours unless it is alone in its list. -/
theorem alone_iff (h : Shelved next prev head tail key P) (ha : P a) :
    prev a = none ∧ next a = none ↔ ∀ b, P b → key b = key a → b = a := by
  obtain ⟨l, hl, hmem⟩ := h (key a)
  obtain ⟨l₁, l₂, rfl⟩ := List.append_of_mem ((hmem a).mpr ⟨ha, rfl⟩)
  have hnodup := hl.nodup
  rw [hl.prev_eq, hl.next_eq, List.getLast?_eq_none_iff, List.head?_eq_none_iff]
  constructor
  · rintro ⟨rfl, rfl⟩ b hb hkey
    exact List.mem_singleton.mp ((hmem b).mpr ⟨hb, hkey⟩)
  · intro halone
    have hall : ∀ b ∈ l₁ ++ a :: l₂, b = a :=
      fun b hb => halone b ((hmem b).mp hb).1 ((hmem b).mp hb).2
    have hnot₁ : a ∉ l₁ := fun hm =>
      (List.nodup_append.mp hnodup).2.2 a hm a (List.mem_cons_self ..) rfl
    have hnot₂ := (List.nodup_cons.mp (List.nodup_append.mp hnodup).2.1).1
    constructor
    · apply List.eq_nil_iff_forall_not_mem.mpr
      intro b hb
      exact hnot₁ (hall b (List.mem_append_left _ hb) ▸ hb)
    · apply List.eq_nil_iff_forall_not_mem.mpr
      intro b hb
      exact hnot₂ (hall b (List.mem_append_right _ (List.mem_cons_of_mem _ hb)) ▸ hb)

variable [DecidableEq κ] [DecidableEq α]

/-- Put `a` on the shelf of its key. -/
theorem push (h : Shelved next prev head tail key P) (ha : ¬ P a)
    (hkey : ∀ z, P z → key' z = key z) (hn : next' a = head (key' a)) (hp : prev' a = none)
    (hnext : ∀ z, P z → next' z = next z)
    (hprev : ∀ z, P z → prev' z = if head (key' a) = some z then some a else prev z)
    (hhead : ∀ k, head' k = if k = key' a then some a else head k)
    (htail : ∀ k, tail' k = if k = key' a then (tail k).or (some a) else tail k) :
    Shelved next' prev' head' tail' key' (fun z => z = a ∨ P z) := by
  intro k
  obtain ⟨l, hl, hmem⟩ := h k
  have hl_P : ∀ z ∈ l, P z := fun z hz => ((hmem z).mp hz).1
  rw [hhead k, htail k]
  rcases eq_or_ne k (key' a) with rfl | hk
  · simp only [if_true]
    refine ⟨a :: l, hl.push (fun hal => ha (hl_P a hal)) hn hp
      (fun z hz => hnext z (hl_P z hz)) (fun z hz => hprev z (hl_P z hz)), fun z => ?_⟩
    rw [List.mem_cons, hmem z]
    constructor
    · rintro (rfl | ⟨hz, hkz⟩)
      · exact ⟨Or.inl rfl, rfl⟩
      · exact ⟨Or.inr hz, by rw [hkey z hz, hkz]⟩
    · rintro ⟨rfl | hz, hkz⟩
      · exact Or.inl rfl
      · exact Or.inr ⟨hz, by rw [← hkey z hz, hkz]⟩
  · simp only [if_neg hk]
    refine ⟨l, hl.congr (fun z hz => hnext z (hl_P z hz)) (fun z hz => ?_), fun z => ?_⟩
    · rw [hprev z (hl_P z hz), if_neg]
      intro hz'
      exact hk (((hmem z).mp hz).2.symm.trans (h.head_mem hz').2)
    · rw [hmem z]
      constructor
      · rintro ⟨hz, hkz⟩
        exact ⟨Or.inr hz, by rw [hkey z hz, hkz]⟩
      · rintro ⟨rfl | hz, hkz⟩
        · exact absurd hkz.symm hk
        · exact ⟨hz, by rw [← hkey z hz, hkz]⟩

/-- Take `a` off its shelf. -/
theorem remove (h : Shelved next prev head tail key P) (ha : P a)
    (hnext : ∀ z, P z → z ≠ a → next' z = if prev a = some z then next a else next z)
    (hprev : ∀ z, P z → z ≠ a → prev' z = if next a = some z then prev a else prev z)
    (hhead : ∀ k, head' k = if k = key a ∧ head k = some a then next a else head k)
    (htail : ∀ k, tail' k = if k = key a ∧ tail k = some a then prev a else tail k) :
    Shelved next' prev' head' tail' key (fun z => P z ∧ z ≠ a) := by
  intro k
  obtain ⟨l, hl, hmem⟩ := h k
  rw [hhead k, htail k]
  rcases eq_or_ne k (key a) with rfl | hk
  · simp only [true_and]
    obtain ⟨l₁, l₂, rfl⟩ := List.append_of_mem ((hmem a).mpr ⟨ha, rfl⟩)
    have hnodup := hl.nodup
    rw [List.nodup_middle] at hnodup
    have hout : a ∉ l₁ ++ l₂ := (List.nodup_cons.mp hnodup).1
    have hin : ∀ z ∈ l₁ ++ l₂, P z ∧ z ≠ a := by
      intro z hz
      refine ⟨((hmem z).mp ?_).1, ?_⟩
      · rcases List.mem_append.mp hz with hz | hz <;> simp [hz]
      · rintro rfl
        exact hout hz
    refine ⟨l₁ ++ l₂, hl.remove (fun z hz => hnext z (hin z hz).1 (hin z hz).2)
      (fun z hz => hprev z (hin z hz).1 (hin z hz).2), fun z => ?_⟩
    constructor
    · intro hz
      refine ⟨hin z hz, ((hmem z).mp ?_).2⟩
      rcases List.mem_append.mp hz with hz | hz <;> simp [hz]
    · rintro ⟨⟨hz, hza⟩, hkz⟩
      have hzl := (hmem z).mpr ⟨hz, hkz⟩
      simpa [hza] using hzl
  · simp only [hk, false_and, if_false]
    have hne : ∀ z ∈ l, z ≠ a := by
      rintro z hz rfl
      exact hk ((hmem z).mp hz).2.symm
    refine ⟨l, hl.congr (fun z hz => ?_) (fun z hz => ?_), fun z => ?_⟩
    · obtain ⟨hPz, hkz⟩ := (hmem z).mp hz
      rw [hnext z hPz (hne z hz), if_neg]
      intro hp
      exact hk (hkz.symm.trans (h.prev_mem ha hp).2.1)
    · obtain ⟨hPz, hkz⟩ := (hmem z).mp hz
      rw [hprev z hPz (hne z hz), if_neg]
      intro hn
      exact hk (hkz.symm.trans (h.next_mem ha hn).2.1)
    · rw [hmem z]
      constructor
      · rintro ⟨hz, hkz⟩
        refine ⟨⟨hz, ?_⟩, hkz⟩
        rintro rfl
        exact hk hkz.symm
      · rintro ⟨⟨hz, -⟩, hkz⟩
        exact ⟨hz, hkz⟩

end Shelved

/-! # A chain for each key -/

/-- The members of `P`, each in the chain of its key. -/
def Chained (next : α → Option α) (head : κ → Option α) (key : α → κ) (P : α → Prop) : Prop :=
  ∀ k, ∃ l, Seg next (head k) l none ∧ l.Nodup ∧ ∀ a, a ∈ l ↔ P a ∧ key a = k

namespace Chained

variable {next next' : α → Option α} {head head' : κ → Option α} {key key' : α → κ}
  {P Q : α → Prop} {a : α} {k : κ} {l₁ l₂ : List α}

theorem empty (hhead : ∀ k, head k = none) (hP : ∀ a, ¬ P a) : Chained next head key P := by
  intro k
  rw [hhead k]
  exact ⟨[], rfl, List.nodup_nil, by simp [hP]⟩

theorem congr (h : Chained next head key P) (hnext : ∀ z, P z → next' z = next z)
    (hkey : ∀ z, P z → key' z = key z) (hhead : ∀ k, head' k = head k)
    (hP : ∀ z, Q z ↔ P z) : Chained next' head' key' Q := by
  intro k
  obtain ⟨l, hl, hnodup, hmem⟩ := h k
  rw [hhead k]
  refine ⟨l, hl.congr fun z hz => hnext z ((hmem z).mp hz).1, hnodup, fun z => ?_⟩
  rw [hmem z, hP z]
  constructor
  · rintro ⟨hz, hk⟩
    exact ⟨hz, by rw [hkey z hz, hk]⟩
  · rintro ⟨hz, hk⟩
    exact ⟨hz, by rw [← hkey z hz, hk]⟩

variable [DecidableEq κ]

/-- Put `a` in front of the chain of its key. -/
theorem push (h : Chained next head key P) (ha : ¬ P a) (hkey : ∀ z, P z → key' z = key z)
    (hn : next' a = head (key' a)) (hnext : ∀ z, P z → next' z = next z)
    (hhead : ∀ k, head' k = if k = key' a then some a else head k) :
    Chained next' head' key' (fun z => z = a ∨ P z) := by
  intro k
  obtain ⟨l, hl, hnodup, hmem⟩ := h k
  have hl_P : ∀ z ∈ l, P z := fun z hz => ((hmem z).mp hz).1
  rw [hhead k]
  rcases eq_or_ne k (key' a) with rfl | hk
  · simp only [if_true]
    refine ⟨a :: l, hl.push hn fun z hz => hnext z (hl_P z hz),
      List.nodup_cons.mpr ⟨fun hal => ha (hl_P a hal), hnodup⟩, fun z => ?_⟩
    rw [List.mem_cons, hmem z]
    constructor
    · rintro (rfl | ⟨hz, hkz⟩)
      · exact ⟨Or.inl rfl, rfl⟩
      · exact ⟨Or.inr hz, by rw [hkey z hz, hkz]⟩
    · rintro ⟨rfl | hz, hkz⟩
      · exact Or.inl rfl
      · exact Or.inr ⟨hz, by rw [← hkey z hz, hkz]⟩
  · simp only [if_neg hk]
    refine ⟨l, hl.congr fun z hz => hnext z (hl_P z hz), hnodup, fun z => ?_⟩
    rw [hmem z]
    constructor
    · rintro ⟨hz, hkz⟩
      exact ⟨Or.inr hz, by rw [hkey z hz, hkz]⟩
    · rintro ⟨rfl | hz, hkz⟩
      · exact absurd hkz.symm hk
      · exact ⟨hz, by rw [← hkey z hz, hkz]⟩

variable [DecidableEq α]

/-- Take `a` out of the chain of its key, its predecessor there being known. -/
theorem remove (h : Chained next head key P)
    (hchain : Seg next (head (key a)) (l₁ ++ a :: l₂) none)
    (hnext : ∀ z, P z → z ≠ a → next' z = if l₁.getLast? = some z then next a else next z)
    (hhead : ∀ k, head' k = if k = key a ∧ l₁ = [] then next a else head k) :
    Chained next' head' key (fun z => P z ∧ z ≠ a) := by
  intro k
  obtain ⟨l, hl, hnodup, hmem⟩ := h k
  rw [hhead k]
  rcases eq_or_ne k (key a) with rfl | hk
  · obtain rfl := hl.unique hchain
    have hsplit := hnodup
    rw [List.nodup_middle] at hsplit
    have hout : a ∉ l₁ ++ l₂ := (List.nodup_cons.mp hsplit).1
    rw [List.nodup_append] at hnodup
    have hin : ∀ z ∈ l₁ ++ l₂, P z ∧ z ≠ a := by
      intro z hz
      refine ⟨((hmem z).mp ?_).1, ?_⟩
      · rcases List.mem_append.mp hz with hz | hz <;> simp [hz]
      · rintro rfl
        exact hout hz
    refine ⟨l₁ ++ l₂, hl.remove ?_ ?_ ?_ ?_ ?_, (List.nodup_cons.mp hsplit).2, fun z => ?_⟩
    · rintro rfl
      simp
    · intro hne
      simp [hne]
    · intro z hz
      obtain ⟨hPz, hza⟩ := hin z (List.mem_append_left l₂ (List.mem_of_getLast? hz))
      rw [hnext z hPz hza, if_pos (Option.mem_def.mp hz)]
    · intro z hz
      obtain ⟨hPz, hza⟩ := hin z (List.mem_append_left l₂ (List.dropLast_subset _ hz))
      rw [hnext z hPz hza, if_neg]
      intro hlast
      have h₁ := hnodup.1
      rw [← List.dropLast_append_getLast? z hlast, List.nodup_append] at h₁
      exact h₁.2.2 z hz z (by simp) rfl
    · intro z hz
      obtain ⟨hPz, hza⟩ := hin z (List.mem_append_right l₁ hz)
      rw [hnext z hPz hza, if_neg]
      intro hlast
      exact hnodup.2.2 z (List.mem_of_getLast? hlast) z (List.mem_cons_of_mem a hz) rfl
    · constructor
      · intro hz
        refine ⟨hin z hz, ((hmem z).mp ?_).2⟩
        rcases List.mem_append.mp hz with hz | hz <;> simp [hz]
      · rintro ⟨⟨hz, hza⟩, hkz⟩
        have hzl := (hmem z).mpr ⟨hz, hkz⟩
        simpa [hza] using hzl
  · rw [if_neg fun hand => hk hand.1]
    have hmem_a : ∀ z ∈ l, z ∉ l₁ := by
      intro z hz hz₁
      obtain ⟨m, hm, -, hmem'⟩ := h (key a)
      obtain rfl := hm.unique hchain
      exact hk (((hmem z).mp hz).2.symm.trans ((hmem' z).mp (by simp [hz₁])).2)
    refine ⟨l, hl.congr fun z hz => ?_, hnodup, fun z => ?_⟩
    · obtain ⟨hPz, hkz⟩ := (hmem z).mp hz
      rw [hnext z hPz, if_neg]
      · intro hlast
        exact hmem_a z hz (List.mem_of_getLast? hlast)
      · rintro rfl
        exact hk hkz.symm
    · rw [hmem z]
      constructor
      · rintro ⟨hz, hkz⟩
        refine ⟨⟨hz, ?_⟩, hkz⟩
        rintro rfl
        exact hk hkz.symm
      · rintro ⟨⟨hz, -⟩, hkz⟩
        exact ⟨hz, hkz⟩

end Chained

end Library
