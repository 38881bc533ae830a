-- SUMMARY: The memory block as a queue of bytes, and the writes that go past its end.
import NetworkEtc.Library.Machine
import NetworkEtc.Netfram.Memblock

/-!
# A memory block is a queue of bytes

The bytes between the read and the write pointer are the queue. Every operation
serves it as a queue, for every mix of operations, as long as no `Write` asks for
more than four times the capacity: the loop of `Expand` looks for a size that is
large enough with a comparison that unsigned numbers always pass, so it stops at
its first try.
-/

namespace Netfram

open Library Library.Printf

namespace CMemblock

-- ---------------------------------------------------------------------------
-- The layout of a block
-- ---------------------------------------------------------------------------

/-- The pointers are in order, the size is their distance, and the memory is as long
as the block takes it to be. -/
structure Layout (data : CMemblock) : Prop where
  memory : data.mpcBase.length = data.muCapacity
  capacity_pos : 0 < data.muCapacity
  capacity_le : data.muCapacity ≤ 2 ^ 57
  read_le : data.mpcReadPt ≤ data.mpcWritePt
  write_le : data.mpcWritePt ≤ data.mpcEnd
  end_eq : data.mpcEnd = data.muCapacity
  size_eq : data.muSize = data.mpcWritePt - data.mpcReadPt

theorem layout_init {memory : List UInt8} (hpos : 0 < memory.length)
    (hle : memory.length ≤ 2 ^ 57) : (init memory).Layout :=
  ⟨rfl, hpos, hle, Nat.le_refl _, Nat.zero_le _, rfl, rfl⟩

variable {data data' : CMemblock}

theorem Layout.length_unread (h : data.Layout) : data.unread.length = data.muSize := by
  have := h.memory
  have := h.size_eq
  have := h.end_eq
  have := h.write_le
  rw [unread, getRead, List.length_take, List.length_drop]
  omega

theorem Layout.size_le (h : data.Layout) : data.muSize ≤ data.muCapacity := by
  have := h.size_eq
  have := h.end_eq
  have := h.write_le
  omega

theorem length_store {memory bytes : List UInt8} {offset : Nat}
    (h : offset + bytes.length ≤ memory.length) :
    (store memory offset bytes).length = memory.length := by
  simp only [store, List.length_append, List.length_take, List.length_drop]
  omega

/-- A difference of sizes that does not wrap around. -/
theorem subSize_of_le {a b : Nat} (h : b ≤ a) (ha : a < 2 ^ 64) : subSize a b = a - b := by
  unfold subSize
  omega

theorem subSize_subSize {a b c : Nat} (h : b + c ≤ a) (ha : a < 2 ^ 64) :
    subSize (subSize a b) c = a - b - c := by
  have hsub := subSize_of_le (a := a) (b := b) (by omega) ha
  rw [hsub]
  exact subSize_of_le (by omega) (by omega)

/-- A difference of sizes that does. -/
theorem subSize_of_lt {a b : Nat} (h : a < b) (hb : b < 2 ^ 64) :
    subSize a b = 2 ^ 64 - (b - a) := by
  unfold subSize
  omega

-- ---------------------------------------------------------------------------
-- Moving and adding bytes
-- ---------------------------------------------------------------------------

theorem Layout.unread_append (h : data.Layout) (bytes : List UInt8) :
    (data.append bytes).unread = data.unread ++ bytes := by
  have hmemory := h.memory
  have hend := h.end_eq
  have hwrite := h.write_le
  have hread := h.read_le
  have hsize := h.size_eq
  have hlen : (data.mpcBase.take data.mpcWritePt).length = data.mpcWritePt := by
    rw [List.length_take]
    omega
  have hold : (data.mpcBase.take data.mpcWritePt).drop data.mpcReadPt = data.unread := by
    rw [List.drop_take, unread, getRead, hsize]
  have hunread := h.length_unread
  simp only [CMemblock.append, unread, getRead, store]
  rw [List.append_assoc, List.drop_append_of_le_length (by omega), hold, ← List.append_assoc,
    List.take_append_of_le_length (by simp [hunread]), List.take_of_length_le (by simp [hunread])]
  rfl

theorem Layout.append (h : data.Layout) (bytes : List UInt8)
    (hfit : data.mpcWritePt + bytes.length ≤ data.mpcEnd) :
    (data.append bytes).Layout ∧ (data.append bytes).unread = data.unread ++ bytes := by
  have hmemory := h.memory
  have hend := h.end_eq
  have hread := h.read_le
  have hsize := h.size_eq
  refine ⟨⟨?_, h.capacity_pos, h.capacity_le, ?_, hfit, hend, ?_⟩, h.unread_append bytes⟩
  · exact (length_store (by omega)).trans hmemory
  · simp only [CMemblock.append]
    omega
  · simp only [CMemblock.append]
    omega

/-- The unread bytes at the start of memory that is long enough. -/
theorem take_store_unread (h : data.Layout) {memory : List UInt8} :
    ((store memory 0 data.unread).drop 0).take data.muSize = data.unread := by
  simp [store, ← h.length_unread]

theorem Layout.shrink (h : data.Layout) :
    data.shrink.Layout ∧ data.shrink.unread = data.unread := by
  have hlen := h.length_unread
  have hle := h.size_le
  refine ⟨⟨?_, h.capacity_pos, h.capacity_le, Nat.zero_le _, ?_, h.end_eq, ?_⟩, ?_⟩
  · have hfit : 0 + data.unread.length ≤ data.mpcBase.length := by
      rw [h.memory]
      omega
    exact (length_store hfit).trans h.memory
  · simp only [CMemblock.shrink]
    rw [h.end_eq]
    exact hle
  · simp only [CMemblock.shrink]
    omega
  · exact take_store_unread h

theorem Layout.compact_eq (h : data.Layout) : data.compact = data.shrink := by
  simp only [compact, CMemblock.shrink, h.size_eq]

theorem Layout.resize (h : data.Layout) {heap : Heap} {auSize : Nat}
    (hresize : data.resize heap auSize = some data') :
    data'.Layout ∧ data'.unread = data.unread ∧ auSize ≤ data'.muCapacity ∧
      data'.muSize = data.muSize := by
  unfold CMemblock.resize at hresize
  split at hresize
  · rename_i hle
    cases hresize
    exact ⟨h, rfl, hle, rfl⟩
  · rename_i hgt
    obtain ⟨lpcAddr, hnew, rfl⟩ := Option.map_eq_some_iff.mp hresize
    have hlength := heap.length_new hnew
    have hlen := h.length_unread
    have hle := h.size_le
    refine ⟨⟨?_, ?_, heap.new_le hnew, Nat.zero_le _, ?_, rfl, ?_⟩, ?_, Nat.le_refl _, rfl⟩
    · have hfit : 0 + data.unread.length ≤ lpcAddr.length := by omega
      exact (length_store hfit).trans hlength
    · simp only
      omega
    · simp only
      omega
    · simp only
      omega
    · exact take_store_unread h

-- ---------------------------------------------------------------------------
-- `Expand` and `Write`
-- ---------------------------------------------------------------------------

/-- The loop of `Expand` takes four times the capacity, if the bytes fit in it. -/
theorem expandSize_eq {luSize muSize auSize : Nat} (hpos : 0 < luSize) (hle : luSize ≤ 2 ^ 57)
    (hfit : muSize + auSize ≤ 4 * luSize) (fuel : Nat) :
    expandSize luSize muSize auSize (fuel + 2) =
      some (if muSize + auSize = 4 * luSize then 16 * luSize else 4 * luSize) := by
  have hmod : luSize * 4 % 2 ^ 64 = 4 * luSize := by omega
  have hmod' : 4 * luSize * 4 % 2 ^ 64 = 16 * luSize := by omega
  have hsub : subSize (subSize (4 * luSize) muSize) auSize = 4 * luSize - muSize - auSize :=
    subSize_subSize (by omega) (by omega)
  have hsub' : subSize (subSize (16 * luSize) muSize) auSize =
      16 * luSize - muSize - auSize :=
    subSize_subSize (by omega) (by omega)
  by_cases heq : muSize + auSize = 4 * luSize
  · -- The size that fits exactly is refused and the loop goes once more.
    have hzero : ¬ 0 < 4 * luSize - muSize - auSize := by omega
    have hmore : 0 < 16 * luSize - muSize - auSize := by omega
    rw [expandSize, hmod, hsub, if_neg hzero, expandSize, hmod', hsub', if_pos hmore, if_pos heq]
  · have hmore : 0 < 4 * luSize - muSize - auSize := by omega
    rw [expandSize, hmod, hsub, if_pos hmore, if_neg heq]

theorem expandSize_fits {luSize muSize auSize : Nat} (hpos : 0 < luSize) (hle : luSize ≤ 2 ^ 57)
    (hfit : muSize + auSize ≤ 4 * luSize) (fuel : Nat) :
    ∃ size, expandSize luSize muSize auSize (fuel + 2) = some size ∧
      muSize + auSize ≤ size := by
  refine ⟨_, expandSize_eq hpos hle hfit fuel, ?_⟩
  split
  · omega
  · omega

theorem Layout.expand (h : data.Layout) {heap : Heap} {auSize : Nat}
    (hfit : data.muSize + auSize ≤ 4 * data.muCapacity)
    (hexpand : data.expand heap auSize = some data') :
    data'.Layout ∧ data'.unread = data.unread ∧ data'.muSize + auSize ≤ data'.muCapacity := by
  have hle := h.capacity_le
  have hsize := h.size_le
  unfold CMemblock.expand at hexpand
  rw [subSize_of_le hsize (by omega)] at hexpand
  by_cases hroom : data.muSize + auSize ≤ data.muCapacity
  · rw [subSize_of_le (by omega) (by omega), if_neg (by omega)] at hexpand
    cases hexpand
    exact ⟨h, rfl, hroom⟩
  · rw [subSize_of_lt (by omega) (by omega), if_pos (by omega)] at hexpand
    obtain ⟨size, hexpandSize, hfits⟩ := expandSize_fits h.capacity_pos hle hfit 31
    rw [hexpandSize, Option.bind_some] at hexpand
    obtain ⟨hlayout, hunread, hcapacity, hsame⟩ := h.resize hexpand
    exact ⟨hlayout, hunread, by omega⟩

theorem resize_eq_none {heap : Heap} {auSize : Nat} (h : data.resize heap auSize = none) :
    heap.new auSize = none := by
  unfold resize at h
  split at h
  · cases h
  · exact Option.map_eq_none_iff.mp h

/-- `Write` fails only for want of memory. -/
theorem Layout.write_eq_none (h : data.Layout) {heap : Heap} {bytes : List UInt8}
    (hfit : data.muSize + bytes.length ≤ 4 * data.muCapacity)
    (hwrite : data.write heap bytes = none) : ∃ n, heap.new n = none := by
  have hexpand := Option.map_eq_none_iff.mp hwrite
  unfold CMemblock.expand at hexpand
  dsimp only at hexpand
  split at hexpand
  · obtain ⟨size, hexpandSize, -⟩ := expandSize_fits h.capacity_pos h.capacity_le hfit 31
    rw [hexpandSize, Option.bind_some] at hexpand
    exact ⟨size, resize_eq_none hexpand⟩
  · cases hexpand

theorem Layout.write (h : data.Layout) {heap : Heap} {bytes : List UInt8}
    (hfit : data.muSize + bytes.length ≤ 4 * data.muCapacity)
    (hwrite : data.write heap bytes = some data') :
    data'.Layout ∧ data'.unread = data.unread ++ bytes := by
  obtain ⟨grown, hexpand, hdata'⟩ := Option.map_eq_some_iff.mp hwrite
  obtain ⟨hlayout, hunread, hroom⟩ := h.expand hfit hexpand
  have hend := hlayout.end_eq
  have hle := hlayout.capacity_le
  have hwrite_le := hlayout.write_le
  rw [subSize_of_le hwrite_le (by omega)] at hdata'
  split at hdata'
  · rw [hlayout.compact_eq] at hdata'
    obtain ⟨hshrunk, hsame⟩ := hlayout.shrink
    have happend := hshrunk.append bytes (by
      have hsize : grown.shrink.mpcWritePt = grown.muSize := rfl
      have hcap : grown.shrink.mpcEnd = grown.mpcEnd := rfl
      omega)
    rw [← hdata', ← hunread, ← hsame]
    exact happend
  · have happend := hlayout.append bytes (by omega)
    rw [← hdata', ← hunread]
    exact happend

/-- A `Write` for which there is room moves nothing. -/
theorem Layout.write_of_room (h : data.Layout) (heap : Heap) {bytes : List UInt8}
    (hroom : data.mpcWritePt + bytes.length ≤ data.mpcEnd) :
    data.write heap bytes = some (data.append bytes) := by
  have hle := h.capacity_le
  have hend := h.end_eq
  have hsize := h.size_eq
  have hwrite := h.write_le
  have hexpand : data.expand heap bytes.length = some data := by
    unfold CMemblock.expand
    rw [subSize_of_le h.size_le (by omega), subSize_of_le (by omega) (by omega)]
    exact if_neg (by omega)
  rw [CMemblock.write, hexpand, Option.map_some, subSize_of_le hwrite (by omega),
    if_neg (by omega)]

theorem write_size {heap : Heap} {bytes : List UInt8} (h : data.write heap bytes = some data') :
    data'.muSize = data.muSize + bytes.length := by
  obtain ⟨grown, hexpand, hdata'⟩ := Option.map_eq_some_iff.mp h
  have hgrown : grown.muSize = data.muSize := by
    unfold CMemblock.expand at hexpand
    simp only at hexpand
    split at hexpand
    · obtain ⟨size, -, hresize⟩ := Option.bind_eq_some_iff.mp hexpand
      unfold CMemblock.resize at hresize
      split at hresize
      · cases hresize
        rfl
      · obtain ⟨lpcAddr, -, rfl⟩ := Option.map_eq_some_iff.mp hresize
        rfl
    · cases hexpand
      rfl
  rw [← hdata', ← hgrown]
  split
  · rfl
  · rfl

/-- What `Expand` makes of a block that even four times its capacity would not do for. -/
theorem Layout.expand_short (h : data.Layout) {heap : Heap} {auSize : Nat}
    (hshort : 4 * data.muCapacity < data.muSize + auSize) (hsize : auSize < 2 ^ 62) :
    data.expand heap auSize = data.resize heap (4 * data.muCapacity) := by
  have hle := h.capacity_le
  have hpos := h.capacity_pos
  have hsize_le := h.size_le
  have hmod : data.muCapacity * 4 % 2 ^ 64 = data.muCapacity * 4 := by omega
  have hexpandSize : expandSize data.muCapacity data.muSize auSize 33 =
      some (data.muCapacity * 4) := by
    have hsub : subSize (data.muCapacity * 4) data.muSize = data.muCapacity * 4 - data.muSize :=
      subSize_of_le (by omega) (by omega)
    rw [expandSize, hmod, hsub, subSize_of_lt (by omega) (by omega), if_pos (by omega)]
  unfold CMemblock.expand
  rw [subSize_of_le hsize_le (by omega), subSize_of_lt (by omega) (by omega), if_pos (by omega),
    hexpandSize, Option.bind_some, Nat.mul_comm]

/-- The bytes come behind the unread ones, but past the end of the block if four times its capacity
is not enough. -/
theorem Layout.write_exact (h : data.Layout) {heap : Heap} {bytes : List UInt8}
    (hsize : bytes.length < 2 ^ 62) (hwrite : data.write heap bytes = some data') :
    data'.unread = data.unread ++ bytes ∧
      (data'.Layout ↔ data.muSize + bytes.length ≤ 4 * data.muCapacity) := by
  rcases Nat.lt_or_ge (4 * data.muCapacity) (data.muSize + bytes.length) with hshort | hfit
  · obtain ⟨grown, hexpand, hdata'⟩ := Option.map_eq_some_iff.mp hwrite
    rw [h.expand_short hshort hsize] at hexpand
    obtain ⟨hlayout, hunread, -, hgrown⟩ := h.resize hexpand
    have hcapacity : grown.mpcEnd = 4 * data.muCapacity := by
      unfold CMemblock.resize at hexpand
      have hpos := h.capacity_pos
      rw [if_neg (by omega)] at hexpand
      obtain ⟨lpcAddr, -, rfl⟩ := Option.map_eq_some_iff.mp hexpand
      rfl
    have hwrite_le := hlayout.write_le
    have hgrown_size := hlayout.size_eq
    have hle := h.capacity_le
    rw [subSize_of_le hwrite_le (by omega), if_pos (by omega), hlayout.compact_eq] at hdata'
    obtain ⟨hshrunk, hsame⟩ := hlayout.shrink
    rw [← hdata', ← hunread, ← hsame]
    refine ⟨hshrunk.unread_append bytes, fun hlayout' => ?_, fun hfit => by omega⟩
    have hpast : grown.muSize + bytes.length ≤ grown.mpcEnd := hlayout'.write_le
    omega
  · obtain ⟨hlayout, hunread⟩ := h.write hfit hwrite
    exact ⟨hunread, iff_of_true hlayout hfit⟩

/-- Where every size up to that of the address space can be had, `Write` grows to four times the
capacity, if there is such a size. -/
theorem Layout.write_isSome_iff (h : data.Layout) {heap : Heap} {bytes : List UInt8}
    (hample : ∀ n ≤ 2 ^ 57, heap.new n ≠ none) (hsize : bytes.length < 2 ^ 50)
    (hfit : data.muSize + bytes.length ≤ 4 * data.muCapacity) :
    (data.write heap bytes).isSome ↔
      data.muSize + bytes.length ≤ data.muCapacity ∨ 4 * data.muCapacity ≤ 2 ^ 57 := by
  have hle := h.capacity_le
  have hpos := h.capacity_pos
  have hsize_le := h.size_le
  rw [CMemblock.write, Option.isSome_map, CMemblock.expand, subSize_of_le hsize_le (by omega)]
  rcases Nat.lt_or_ge data.muCapacity (data.muSize + bytes.length) with hgrows | hroom
  · rw [subSize_of_lt (by omega) (by omega), if_pos (by omega), expandSize_eq hpos hle hfit 31,
      Option.bind_some, CMemblock.resize]
    have hgt : ¬ (if data.muSize + bytes.length = 4 * data.muCapacity then 16 * data.muCapacity
        else 4 * data.muCapacity) ≤ data.muCapacity := by
      split
      · omega
      · omega
    rw [if_neg hgt, Option.isSome_map]
    constructor
    · intro hsome
      obtain ⟨memory, hnew⟩ := Option.isSome_iff_exists.mp hsome
      have hnew_le := heap.new_le hnew
      split at hnew_le
      · omega
      · exact Or.inr hnew_le
    · rintro (hroom | hspace)
      · omega
      · apply Option.isSome_iff_ne_none.mpr
        apply hample
        split
        · omega
        · exact hspace
  · rw [subSize_of_le (by omega) (by omega), if_neg (by omega)]
    exact iff_of_true rfl (Or.inl hroom)

theorem Layout.read (h : data.Layout) (auSize : Nat) :
    (data.read auSize).2.Layout ∧
    match (data.read auSize).1 with
    | none => data.unread = [] ∧ (data.read auSize).2.unread = data.unread
    | some bytes => bytes = data.unread.take auSize ∧ data.unread ≠ [] ∧
        (data.read auSize).2.unread = data.unread.drop auSize := by
  have hlen := h.length_unread
  have hsize := h.size_eq
  have hread := h.read_le
  unfold CMemblock.read
  split
  · rename_i hzero
    exact ⟨h, List.length_eq_zero_iff.mp (by omega), rfl⟩
  · rename_i hpos
    have hne : data.unread ≠ [] := fun hnil => hpos (by simpa [hnil] using hlen.symm)
    split
    · rename_i hless
      refine ⟨⟨h.memory, h.capacity_pos, h.capacity_le, Nat.le_refl _, h.write_le, h.end_eq, ?_⟩,
        ?_, hne, ?_⟩
      · simp
      · have hall : data.unread.take auSize = data.unread := List.take_of_length_le (by omega)
        exact hall.symm
      · rw [List.drop_of_length_le (by omega)]
        simp [unread]
    · rename_i hmore
      refine ⟨⟨h.memory, h.capacity_pos, h.capacity_le, ?_, h.write_le, h.end_eq, ?_⟩, ?_, hne, ?_⟩
      · simp only
        omega
      · simp only
        omega
      · rw [unread, List.take_take, Nat.min_eq_left (by omega)]
      · simp only [unread, getRead, List.drop_take, List.drop_drop]

theorem Layout.setRead (h : data.Layout) (auSize : Nat) :
    (data.setRead auSize).2.Layout ∧
    match (data.setRead auSize).1 with
    | none => (data.unread = [] ∨ data.unread.length < auSize) ∧
        (data.setRead auSize).2.unread = data.unread
    | some n => n = auSize ∧ auSize ≤ data.unread.length ∧
        (data.setRead auSize).2.unread = data.unread.drop auSize := by
  have hlen := h.length_unread
  have hsize := h.size_eq
  have hread := h.read_le
  unfold CMemblock.setRead
  split
  · rename_i hrefused
    refine ⟨h, hrefused.imp (fun hzero => ?_) (fun hless => by omega), rfl⟩
    exact List.length_eq_zero_iff.mp (by omega)
  · rename_i hok
    refine ⟨⟨h.memory, h.capacity_pos, h.capacity_le, ?_, h.write_le, h.end_eq, ?_⟩, rfl, ?_, ?_⟩
    · simp only
      omega
    · simp only
      omega
    · omega
    · simp only [unread, getRead, List.drop_take, List.drop_drop]

theorem Layout.reset (h : data.Layout) : data.reset.Layout ∧ data.reset.unread = [] :=
  ⟨⟨h.memory, h.capacity_pos, h.capacity_le, Nat.le_refl _, Nat.zero_le _, h.end_eq, rfl⟩,
    by simp [CMemblock.reset, unread]⟩

-- ---------------------------------------------------------------------------
-- Runs of a block
-- ---------------------------------------------------------------------------

inductive Op where
  | write (bytes : List UInt8)
  | read (auSize : Nat)
  | setRead (auSize : Nat)
  | shrink
  | resize (auSize : Nat)
  | reset

/-- An operation, and what `new` gives during it. -/
structure Call where
  op : Op
  heap : Heap

inductive Reply where
  | wrote (n : Nat)
  | got (bytes : List UInt8)
  | skipped (n : Nat)
  /-- -1 -/
  | noData
  | done
  /-- `new` threw, or `Expand` did not come back. -/
  | threw
  deriving DecidableEq

def step (data : CMemblock) (call : Call) : CMemblock × Reply :=
  match call.op with
  | .write bytes =>
    match data.write call.heap bytes with
    | none => (data, .threw)
    | some data => (data, .wrote bytes.length)
  | .read auSize =>
    match data.read auSize with
    | (none, data) => (data, .noData)
    | (some bytes, data) => (data, .got bytes)
  | .setRead auSize =>
    match data.setRead auSize with
    | (none, data) => (data, .noData)
    | (some n, data) => (data, .skipped n)
  | .shrink => (data.shrink, .done)
  | .resize auSize =>
    match data.resize call.heap auSize with
    | none => (data, .threw)
    | some data => (data, .done)
  | .reset => (data.reset, .done)

def machine (data : CMemblock) : Machine CMemblock Call Reply := ⟨data, step⟩

/-- What a queue of bytes does: the operation, what it holds before, the reply, and
what it holds after. An operation that throws has done nothing. -/
def Serves : Op → List UInt8 → Reply → List UInt8 → Prop
  | .write bytes, q, .wrote n, q' => n = bytes.length ∧ q' = q ++ bytes
  | .write _, q, .threw, q' => q' = q
  | .read auSize, q, .got bytes, q' => q ≠ [] ∧ bytes = q.take auSize ∧ q' = q.drop auSize
  | .read _, q, .noData, q' => q = [] ∧ q' = q
  | .setRead auSize, q, .skipped n, q' => n = auSize ∧ auSize ≤ q.length ∧ q' = q.drop auSize
  | .setRead auSize, q, .noData, q' => (q = [] ∨ q.length < auSize) ∧ q' = q
  | .shrink, q, .done, q' => q' = q
  | .resize _, q, .done, q' => q' = q
  | .resize _, q, .threw, q' => q' = q
  | .reset, _, .done, q' => q' = []
  | _, _, _, _ => False

/-- The bytes written since the last `Reset`, those that were there at the start
included. -/
def written (start : List UInt8) : List (Step CMemblock Call Reply) → List UInt8
  | [] => start
  | st :: tr =>
    match st.input.op, st.output with
    | .write bytes, .wrote _ => written start tr ++ bytes
    | .reset, _ => []
    | _, _ => written start tr

/-- The bytes taken out since the last `Reset`, by copying them or skipping them. -/
def taken : List (Step CMemblock Call Reply) → List UInt8
  | [] => []
  | st :: tr =>
    match st.input.op, st.output with
    | .read _, .got bytes => taken tr ++ bytes
    | .setRead _, .skipped n => taken tr ++ st.pre.unread.take n
    | .reset, _ => []
    | _, _ => taken tr

/-- A run is that of a queue: the layout holds before and after every step, every
step serves the queue and throws only if there is no memory, and no byte is lost,
added or out of order. -/
def IsFifo (start : List UInt8) (tr : List (Step CMemblock Call Reply)) (data : CMemblock) : Prop :=
  data.Layout ∧
  (∀ st ∈ tr, st.pre.Layout ∧ st.post.Layout ∧
    Serves st.input.op st.pre.unread st.output st.post.unread ∧
    (st.output = .threw → ∃ n, st.input.heap.new n = none)) ∧
  written start tr = taken tr ++ data.unread

/-- The condition: no `Write` finds the unread and the new bytes together above four
times the capacity. -/
def Fits (tr : List (Step CMemblock Call Reply)) : Prop :=
  ∀ st ∈ tr, ∀ bytes, st.input.op = .write bytes →
    st.pre.muSize + bytes.length ≤ 4 * st.pre.muCapacity

/-- One operation serves the queue. -/
theorem step_serves (h : data.Layout) (call : Call)
    (hfit : ∀ bytes, call.op = .write bytes →
      data.muSize + bytes.length ≤ 4 * data.muCapacity) :
    (data.step call).1.Layout ∧
      Serves call.op data.unread (data.step call).2 (data.step call).1.unread ∧
      ((data.step call).2 = .threw → ∃ n, call.heap.new n = none) := by
  obtain ⟨op, heap⟩ := call
  cases op with
  | write bytes =>
    cases hwrite : data.write heap bytes with
    | none => simpa [step, hwrite, Serves] using ⟨h, h.write_eq_none (hfit bytes rfl) hwrite⟩
    | some data' =>
      obtain ⟨hlayout, hunread⟩ := h.write (hfit bytes rfl) hwrite
      simpa [step, hwrite, Serves] using ⟨hlayout, hunread⟩
  | read auSize =>
    obtain ⟨hlayout, hread⟩ := h.read auSize
    rcases hr : data.read auSize with ⟨reply, data'⟩
    rw [hr] at hlayout hread
    cases reply with
    | none => simpa [step, hr, Serves] using ⟨hlayout, hread⟩
    | some bytes => simpa [step, hr, Serves] using ⟨hlayout, hread.2.1, hread.1, hread.2.2⟩
  | setRead auSize =>
    obtain ⟨hlayout, hread⟩ := h.setRead auSize
    rcases hr : data.setRead auSize with ⟨reply, data'⟩
    rw [hr] at hlayout hread
    cases reply with
    | none => simpa [step, hr, Serves] using ⟨hlayout, hread⟩
    | some n => simpa [step, hr, Serves] using ⟨hlayout, hread⟩
  | shrink => exact ⟨h.shrink.1, h.shrink.2, nofun⟩
  | resize auSize =>
    cases hresize : data.resize heap auSize with
    | none => simpa [step, hresize, Serves] using ⟨h, auSize, resize_eq_none hresize⟩
    | some data' =>
      obtain ⟨hlayout, hunread, -, -⟩ := h.resize hresize
      simpa [step, hresize, Serves] using ⟨hlayout, hunread⟩
  | reset => exact ⟨h.reset.1, h.reset.2, nofun⟩

/-- What is written is what was taken and what is left, one step further. -/
theorem written_cons {start : List UInt8} {tr : List (Step CMemblock Call Reply)}
    {st : Step CMemblock Call Reply} (h : written start tr = taken tr ++ st.pre.unread)
    (hserves : Serves st.input.op st.pre.unread st.output st.post.unread) :
    written start (st :: tr) = taken (st :: tr) ++ st.post.unread := by
  unfold written taken
  rcases hop : st.input.op <;> rcases hout : st.output <;>
    simp only [hop, hout, Serves] at hserves ⊢
  all_goals first
    | exact hserves.elim
    | simp [h, hserves]

/-- Every run that meets the condition, from any block in order, is that of a queue
of bytes. -/
theorem isFifo_of_fits (data : CMemblock) (h : data.Layout) (calls : List Call)
    (hfits : Fits ((machine data).trace calls)) :
    IsFifo data.unread ((machine data).trace calls) ((machine data).run calls) := by
  refine (machine data).invariant (C := Fits)
    (P := fun tr now => IsFifo data.unread tr now)
    (fun st tr hfits st' hst' => hfits st' (List.mem_cons_of_mem st hst')) ⟨h, ?_, ?_⟩ ?_ calls hfits
  · simp
  · simp [machine, written, taken]
  rintro calls call hfits ⟨hlayout, hserved, hbytes⟩
  have hfit := hfits _ (List.mem_cons_self ..)
  obtain ⟨hlayout', hserves, hthrew⟩ := step_serves hlayout call hfit
  refine ⟨hlayout', fun st hst => ?_, written_cons hbytes hserves⟩
  rcases List.mem_cons.mp hst with rfl | hst
  · exact ⟨hlayout, hlayout', hserves, hthrew⟩
  · exact hserved st hst

/-- An allocator that always finds memory, all zero. -/
def zeroHeap : Heap where
  new n := if n ≤ 2 ^ 57 then some (List.replicate n 0) else none
  length_new := by
    intro n memory h
    split at h
    · cases h
      exact List.length_replicate
    · cases h
  new_le := by
    intro n memory h
    split at h
    · assumption
    · cases h

/-- A block of 8 bytes. -/
def small : CMemblock := init (List.replicate 8 0)

/-- Twelve bytes make the small block grow; they come out in two parts. -/
theorem isFifo_small :
    ((machine small).run [⟨.read 20, zeroHeap⟩, ⟨.read 5, zeroHeap⟩,
      ⟨.write [1, 2, 3, 4, 5, 6, 7, 8, 9, 10, 11, 12], zeroHeap⟩]).muCapacity = 32 ∧
    IsFifo [] ((machine small).trace [⟨.read 20, zeroHeap⟩, ⟨.read 5, zeroHeap⟩,
      ⟨.write [1, 2, 3, 4, 5, 6, 7, 8, 9, 10, 11, 12], zeroHeap⟩])
      ((machine small).run [⟨.read 20, zeroHeap⟩, ⟨.read 5, zeroHeap⟩,
        ⟨.write [1, 2, 3, 4, 5, 6, 7, 8, 9, 10, 11, 12], zeroHeap⟩]) := by
  refine ⟨by decide, isFifo_of_fits small (layout_init (by decide) (by decide)) _ ?_⟩
  intro st hst bytes hop
  rcases List.mem_cons.mp hst with rfl | hst
  · cases hop
  rcases List.mem_cons.mp hst with rfl | hst
  · cases hop
  rcases List.mem_cons.mp hst with rfl | hst
  · cases hop
    decide
  · cases hst

/-- Thirty-three bytes do not fit in four times eight: they are copied past the end of
the memory. -/
theorem not_isFifo_small :
    ¬ IsFifo [] ((machine small).trace [⟨.write (List.replicate 33 1), zeroHeap⟩])
      ((machine small).run [⟨.write (List.replicate 33 1), zeroHeap⟩]) := by
  intro h
  exact absurd h.1.memory (by decide)

end CMemblock

end Netfram
