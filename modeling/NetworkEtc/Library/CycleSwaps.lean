-- SUMMARY: Entries that move along the cycles of a map, by exchanges alone.
import Mathlib.Data.Finset.Card
import Mathlib.Data.Finset.Prod
import Mathlib.Data.Nat.ModEq
import Mathlib.Data.Set.Function
import Mathlib.Logic.Equiv.Basic
import Mathlib.Order.Interval.Set.Defs

/-!
# Exchanges along cycles

A map sends each place to the one its entry is to move to. The place where a cycle starts is
exchanged with the others one after the other; as many rounds as the cycle has places move all of
its entries.
-/

namespace Library

/-! # Cycles -/

section

variable {ι α : Type}

/-- From `start` on, `len` places follow each other before `start` comes again. -/
structure IsCycle (next : ι → ι) (start : ι) (len : Nat) : Prop where
  pos : 0 < len
  injOn : Set.InjOn (fun j => next^[j] start) (Set.Iio len)
  closed : next^[len] start = start

/-- The places of a cycle. -/
def cyclePlaces (next : ι → ι) (start : ι) (len : Nat) : Set ι :=
  (fun j => next^[j] start) '' Set.Iio len

/-- The entries at these places have moved to the next ones, and no others have. -/
structure Moved (next : ι → ι) (places : Set ι) (m m' : ι → α) : Prop where
  moved : ∀ x ∈ places, m' (next x) = m x
  stays : ∀ x ∉ places, m' x = m x

variable {next : ι → ι} {start : ι} {len n : Nat} {m m' m'' : ι → α} {s t : Set ι}

theorem Moved.refl (m : ι → α) : Moved next ∅ m m :=
  ⟨fun _ hx => absurd hx (Set.notMem_empty _), fun _ _ => rfl⟩

/-- Places that do not meet can be moved in turn. -/
theorem Moved.trans (h : Moved next s m m') (h' : Moved next t m' m'')
    (hs : Set.MapsTo next s s) (hdisjoint : ∀ x ∈ s, x ∉ t) : Moved next (s ∪ t) m m'' := by
  constructor
  · intro x hx
    rcases hx with hx | hx
    · rw [h'.stays _ (hdisjoint _ (hs hx)), h.moved x hx]
    · rw [h'.moved x hx, h.stays x fun hxs => hdisjoint x hxs hx]
  · intro x hx
    rw [h'.stays x fun hxt => hx (Or.inr hxt), h.stays x fun hxs => hx (Or.inl hxs)]

theorem IsCycle.mapsTo (h : IsCycle next start len) :
    Set.MapsTo next (cyclePlaces next start len) (cyclePlaces next start len) := by
  rintro _ ⟨j, hj, rfl⟩
  rcases Nat.lt_or_ge (j + 1) len with hlt | hge
  · exact ⟨j + 1, hlt, Function.iterate_succ_apply' next j start⟩
  · -- the last place is followed by the first one
    have hlast : j + 1 = len := Nat.le_antisymm hj hge
    refine ⟨0, h.pos, ?_⟩
    rw [← Function.iterate_succ_apply' next j start, Nat.succ_eq_add_one, hlast, h.closed]
    rfl

variable [DecidableEq ι]

/-- On to the next place, which is exchanged with the start. -/
def swapStep (next : ι → ι) (start : ι) (s : ι × (ι → α)) : ι × (ι → α) :=
  (next s.1, s.2 ∘ Equiv.swap (next s.1) start)

/-- The state in the middle of a cycle. The entry that has been taken up is at the start. -/
structure Midway (next : ι → ι) (start : ι) (n : Nat) (m : ι → α) (s : ι × (ι → α)) : Prop where
  place : s.1 = next^[n] start
  moved : ∀ j < n, s.2 (next^[j + 1] start) = m (next^[j] start)
  taken : s.2 start = m (next^[n] start)
  stays : ∀ x, (∀ j ≤ n, x ≠ next^[j] start) → s.2 x = m x

omit [DecidableEq ι] in
theorem midway_start : Midway next start 0 m (start, m) :=
  ⟨rfl, fun _ hj => absurd hj (Nat.not_lt_zero _), rfl, fun _ _ => rfl⟩

theorem Midway.step {s : ι × (ι → α)} (h : Midway next start n m s)
    (hcycle : IsCycle next start len) (hn : n + 1 < len) :
    Midway next start (n + 1) m (swapStep next start s) := by
  have hplace : next s.1 = next^[n + 1] start := by
    rw [h.place, ← Function.iterate_succ_apply' next n start]
  have hne : ∀ {j k}, j < len → k < len → j ≠ k → next^[j] start ≠ next^[k] start :=
    fun hj hk hjk heq => hjk (hcycle.injOn hj hk heq)
  have hstart : ∀ {j}, 0 < j → j < len → next^[j] start ≠ start :=
    fun hpos hj => hne hj hcycle.pos (Nat.ne_of_gt hpos)
  have hstep : swapStep next start s =
      (next^[n + 1] start, s.2 ∘ Equiv.swap (next^[n + 1] start) start) := by
    rw [swapStep, hplace]
  rw [hstep]
  refine ⟨rfl, fun j hj => ?_, ?_, fun x hx => ?_⟩
  · rcases Nat.lt_succ_iff_lt_or_eq.mp hj with hlt | rfl
    · have hother : next^[j + 1] start ≠ next^[n + 1] start := hne (by omega) hn (by omega)
      have hswap := Equiv.swap_apply_of_ne_of_ne hother (hstart (by omega) (by omega))
      exact (congrArg s.2 hswap).trans (h.moved j hlt)
    · exact (congrArg s.2 (Equiv.swap_apply_left _ _)).trans h.taken
  · refine (congrArg s.2 (Equiv.swap_apply_right _ _)).trans ?_
    exact h.stays _ fun j hj => hne hn (by omega) (by omega)
  · have hother : x ≠ start := hx 0 (Nat.zero_le _)
    have hswap := Equiv.swap_apply_of_ne_of_ne (hx (n + 1) le_rfl) hother
    exact (congrArg s.2 hswap).trans (h.stays x fun j hj => hx j (by omega))

theorem midway_iterate (hcycle : IsCycle next start len) (hn : n < len) :
    Midway next start n m ((swapStep next start)^[n] (start, m)) := by
  induction n with
  | zero => exact midway_start
  | succ n ih =>
    rw [Function.iterate_succ_apply']
    exact (ih (by omega)).step hcycle hn

/-- A whole cycle: the last round exchanges the start with itself. -/
theorem moved_cycle (hcycle : IsCycle next start len) :
    Moved next (cyclePlaces next start len) m ((swapStep next start)^[len] (start, m)).2 := by
  obtain ⟨n, rfl⟩ := Nat.exists_eq_add_one_of_ne_zero (Nat.ne_of_gt hcycle.pos)
  have h := midway_iterate (m := m) hcycle (Nat.lt_succ_self n)
  have hlast : next ((swapStep next start)^[n] (start, m)).1 = start := by
    rw [h.place, ← Function.iterate_succ_apply' next n start, Nat.succ_eq_add_one, hcycle.closed]
  rw [Function.iterate_succ_apply', swapStep, hlast, Equiv.swap_self]
  refine ⟨?_, fun x hx => h.stays x fun j hj heq => hx ⟨j, Nat.lt_succ_of_le hj, heq.symm⟩⟩
  rintro _ ⟨j, hj, rfl⟩
  rcases Nat.lt_succ_iff_lt_or_eq.mp hj with hlt | rfl
  · exact (congrArg _ (Function.iterate_succ_apply' next j start).symm).trans (h.moved j hlt)
  · have hnext : next (next^[j] start) = start := by
      rw [← Function.iterate_succ_apply' next j start, Nat.succ_eq_add_one, hcycle.closed]
    exact (congrArg _ hnext).trans h.taken

/-- Cycles that do not meet, one after the other. -/
def swapCycles (next : ι → ι) (start : Nat → ι) (len count : Nat) (m : ι → α) : ι → α :=
  (List.range count).foldl (fun m i => ((swapStep next (start i))^[len] (start i, m)).2) m

theorem moved_cycles {start : Nat → ι} (count : Nat)
    (hcycle : ∀ i < count, IsCycle next (start i) len)
    (hdisjoint : ∀ i < count, ∀ j < i, ∀ x ∈ cyclePlaces next (start j) len,
      x ∉ cyclePlaces next (start i) len) :
    Moved next {x | ∃ i < count, x ∈ cyclePlaces next (start i) len} m
      (swapCycles next start len count m) := by
  induction count with
  | zero =>
    have hnone : {x | ∃ i < 0, x ∈ cyclePlaces next (start i) len} = ∅ := by
      ext x
      simp
    rw [hnone]
    exact Moved.refl m
  | succ count ih =>
    have hbefore := ih (fun i hi => hcycle i (by omega)) fun i hi => hdisjoint i (by omega)
    have hlast := moved_cycle (m := swapCycles next start len count m) (hcycle count (by omega))
    have hall : {x | ∃ i < count + 1, x ∈ cyclePlaces next (start i) len} =
        {x | ∃ i < count, x ∈ cyclePlaces next (start i) len} ∪
          cyclePlaces next (start count) len := by
      ext x
      simp only [Set.mem_ofPred_eq, Set.mem_union, Nat.lt_succ_iff_lt_or_eq, or_and_right,
        exists_or, exists_eq_left]
    have hrange : swapCycles next start len (count + 1) m =
        ((swapStep next (start count))^[len] (start count,
          swapCycles next start len count m)).2 := by
      rw [swapCycles, List.range_succ, List.foldl_append]
      rfl
    rw [hall, hrange]
    refine hbefore.trans hlast ?_ ?_
    · rintro x ⟨i, hi, hx⟩
      exact ⟨i, hi, (hcycle i (by omega)).mapsTo hx⟩
    · rintro x ⟨i, hi, hx⟩
      exact hdisjoint count (by omega) i hi x hx

end

/-! # Rotations -/

section

variable {next : Nat → Nat} {lo n k : Nat}

/-- `n` places from `lo` on are rotated by `k`. -/
def Rotates (next : Nat → Nat) (lo n k : Nat) : Prop :=
  ∀ y < n, next (lo + y) = lo + (y + k) % n

theorem Rotates.iterate (h : Rotates next lo n k) {y : Nat} (hy : y < n) (j : Nat) :
    next^[j] (lo + y) = lo + (y + j * k) % n := by
  induction j with
  | zero => simp [Nat.mod_eq_of_lt hy]
  | succ j ih =>
    rw [Function.iterate_succ_apply', ih, h _ (Nat.mod_lt _ (by omega)), Nat.mod_add_mod,
      Nat.succ_mul, Nat.add_assoc]

/-- Where two walks meet, they began a multiple of the `gcd` apart. -/
theorem Rotates.modEq (h : Rotates next lo n k) {y z : Nat} (hy : y < n) (hz : z < n) {i j : Nat}
    (heq : next^[i] (lo + y) = next^[j] (lo + z)) : y ≡ z [MOD n.gcd k] := by
  rw [h.iterate hy, h.iterate hz] at heq
  have hmod : y + i * k ≡ z + j * k [MOD n] := Nat.add_left_cancel heq
  have hgcd := hmod.of_dvd (Nat.gcd_dvd_left n k)
  have hzero : ∀ i, i * k ≡ 0 [MOD n.gcd k] := fun i =>
    (Nat.modEq_zero_iff_dvd).mpr ((Nat.gcd_dvd_right n k).mul_left i)
  calc y ≡ y + i * k [MOD n.gcd k] := ((hzero i).add_left y).symm
    _ ≡ z + j * k [MOD n.gcd k] := hgcd
    _ ≡ z [MOD n.gcd k] := (hzero j).add_left z

theorem Rotates.isCycle (h : Rotates next lo n k) {y : Nat} (hy : y < n) :
    IsCycle next (lo + y) (n / n.gcd k) := by
  have hpos : 0 < n := by omega
  have hgcd : 0 < n.gcd k := Nat.gcd_pos_of_pos_left k hpos
  refine ⟨Nat.div_pos (Nat.gcd_le_left k hpos) hgcd, fun i hi j hj heq => ?_, ?_⟩
  · -- the steps between two visits of a place make a multiple of `n`
    change next^[i] (lo + y) = next^[j] (lo + y) at heq
    rw [h.iterate hy, h.iterate hy] at heq
    have hmod : y + i * k ≡ y + j * k [MOD n] := Nat.add_left_cancel heq
    have hsteps := Nat.ModEq.cancel_right_div_gcd hpos (Nat.ModEq.add_left_cancel' y hmod)
    exact hsteps.eq_of_lt_of_lt hi hj
  · rw [h.iterate hy]
    have hmul : n / n.gcd k * k = n * (k / n.gcd k) := by
      rw [Nat.div_mul_right_comm (Nat.gcd_dvd_left n k),
        Nat.mul_div_assoc n (Nat.gcd_dvd_right n k)]
    rw [hmul, Nat.add_mul_mod_self_left, Nat.mod_eq_of_lt hy]

/-- `gcd` cycles, which begin at neighbouring places, meet all places. -/
theorem Rotates.exists_cycle (h : Rotates next lo n k) {y : Nat} (hy : y + n.gcd k ≤ n) {x : Nat}
    (hx : x < n) : ∃ i < n.gcd k, lo + x ∈ cyclePlaces next (lo + (y + i)) (n / n.gcd k) := by
  have hpos : 0 < n := by omega
  have hinj : Set.InjOn (fun p : Nat × Nat => (y + p.1 + p.2 * k) % n)
      (Finset.range (n.gcd k) ×ˢ Finset.range (n / n.gcd k) : Finset (Nat × Nat)) := by
    rintro ⟨i, a⟩ hi ⟨j, b⟩ hj heq
    simp only [Finset.coe_product, Finset.coe_range, Set.mem_prod, Set.mem_Iio] at hi hj
    have hmeet : next^[a] (lo + (y + i)) = next^[b] (lo + (y + j)) := by
      rw [h.iterate (by omega), h.iterate (by omega)]
      exact congrArg _ heq
    have hij := Nat.ModEq.add_left_cancel' y (h.modEq (by omega) (by omega) hmeet)
    obtain rfl : i = j := hij.eq_of_lt_of_lt hi.1 hj.1
    obtain rfl : a = b := (h.isCycle (y := y + i) (by omega)).injOn hi.2 hj.2 hmeet
    rfl
  -- as many places are met as there are
  have hcard := Finset.card_image_of_injOn hinj
  rw [Finset.card_product, Finset.card_range, Finset.card_range,
    Nat.mul_div_cancel' (Nat.gcd_dvd_left n k)] at hcard
  have hall := Finset.eq_of_subset_of_card_le
    (s := (Finset.range (n.gcd k) ×ˢ Finset.range (n / n.gcd k)).image
      fun p => (y + p.1 + p.2 * k) % n) (t := Finset.range n)
    (fun z hz => by
      obtain ⟨p, -, rfl⟩ := Finset.mem_image.mp hz
      exact Finset.mem_range.mpr (Nat.mod_lt _ hpos)) (by rw [hcard, Finset.card_range])
  have hmem := Finset.mem_range.mpr hx
  rw [← hall] at hmem
  obtain ⟨⟨i, j⟩, hij, rfl⟩ := Finset.mem_image.mp hmem
  obtain ⟨hi, hj⟩ := Finset.mem_product.mp hij
  refine ⟨i, Finset.mem_range.mp hi, j, Finset.mem_range.mp hj, ?_⟩
  exact h.iterate (by have := Finset.mem_range.mp hi; omega) j

/-- The places that a rotation moves, in as many cycles as their number and `k` have for their
`gcd`. -/
theorem Rotates.moved {α : Type} (h : Rotates next lo n k) {y : Nat} (hy : y + n.gcd k ≤ n)
    (hpos : 0 < n) (m : Nat → α) :
    Moved next {x | lo ≤ x ∧ x < lo + n} m
      (swapCycles next (fun i => lo + (y + i)) (n / n.gcd k) (n.gcd k) m) := by
  have hgcd : 0 < n.gcd k := Nat.gcd_pos_of_pos_left k hpos
  have hmoved : Moved next {x | ∃ i < n.gcd k, x ∈ cyclePlaces next (lo + (y + i)) (n / n.gcd k)} m
      (swapCycles next (fun i => lo + (y + i)) (n / n.gcd k) (n.gcd k) m) := by
    refine moved_cycles _ (fun i hi => h.isCycle (by omega)) ?_
    rintro i hi j hj _ ⟨a, ha, rfl⟩ ⟨b, hb, heq⟩
    have hij := Nat.ModEq.add_left_cancel' y (h.modEq (by omega) (by omega) heq)
    exact absurd (hij.eq_of_lt_of_lt hi (by omega)) (by omega)
  have hplaces : {x | ∃ i < n.gcd k, x ∈ cyclePlaces next (lo + (y + i)) (n / n.gcd k)} =
      {x | lo ≤ x ∧ x < lo + n} := by
    ext x
    constructor
    · rintro ⟨i, hi, j, -, rfl⟩
      have hlt := Nat.mod_lt (y + i + j * k) hpos
      have hj := h.iterate (y := y + i) (by omega) j
      simp only [Set.mem_ofPred_eq]
      omega
    · rintro ⟨hle, hlt⟩
      obtain ⟨z, rfl⟩ := Nat.exists_eq_add_of_le hle
      exact h.exists_cycle hy (by omega)
  rwa [hplaces] at hmoved

end

end Library
