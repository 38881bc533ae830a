-- SUMMARY: The store's state and its hash table of items.
import NetworkEtc.Mdb.SlabManager

/-!
# `cache_hash_map`

The table holds the ids of items, chained through `h_next`. Its own `item_count` is
left out: nothing that is modelled reads it. A walk along a chain is given one round
more than there can be items; one that needs more goes round in a circle.
-/

namespace Mdb

/-- `mdb_area_stat`; its counters of calls are left out, as nothing that is modelled
reads them. -/
structure AreaStat where
  quota : UInt64
  dataSize : UInt64
  spaceUsage : UInt64
  itemCount : UInt64

/-- The store: what lies in the pool, and `slab_managers`. -/
structure Store where
  mem : Memory
  hashtable : Nat → ItemId
  hashShift : Nat
  slabs : Nat → SlabManager
  slabsCount : Nat
  areaStat : Nat → AreaStat
  areaTimestamp : Nat → UInt32

namespace Store

/-- More items than this cannot be told apart by page and offset. -/
def maxItems : Nat := MAX_PAGES_NO * MAX_PAGES_NO

def setItem (s : Store) (a : Addr) (f : MdbItem → MdbItem) : Store :=
  { s with mem := s.mem.setItem a f }

/-! # `hash` -/

/-- Four bytes as an `unsigned int`. -/
def word (a b c d : UInt8) : UInt32 :=
  a.toUInt32 ||| (b.toUInt32 <<< 8) ||| (c.toUInt32 <<< 16) ||| (d.toUInt32 <<< 24)

/-- The loop of `hash` and the bytes it leaves over. -/
def hashLoop (h : UInt32) : List UInt8 → UInt32
  | a :: b :: c :: d :: rest =>
    let k := word a b c d * 0x5bd1e995
    let k := k ^^^ (k >>> 24)
    hashLoop ((h * 0x5bd1e995) ^^^ (k * 0x5bd1e995)) rest
  | [a, b, c] => (h ^^^ (c.toUInt32 <<< 16) ^^^ (b.toUInt32 <<< 8) ^^^ a.toUInt32) * 0x5bd1e995
  | [a, b] => (h ^^^ (b.toUInt32 <<< 8) ^^^ a.toUInt32) * 0x5bd1e995
  | [a] => (h ^^^ a.toUInt32) * 0x5bd1e995
  | [] => h

/-- `hash` -/
def hash (key : List UInt8) : UInt32 :=
  let h := hashLoop (97 ^^^ UInt32.ofNat key.length) key
  let h := (h ^^^ (h >>> 13)) * 0x5bd1e995
  h ^^^ (h >>> 15)

/-- `get_bucket_index`; `bucket_size` is `1 << bucket_shift`. -/
def getBucketIndex (s : Store) (key : List UInt8) : Nat :=
  (hash key).toNat &&& (2 ^ s.hashShift - 1)

/-! # `find`, `insert`, `remove` -/

/-- `__find`: the item with the key and the item before it, if there is one. -/
def findIn (mem : Memory) (key : List UInt8) : Nat → ItemId → Option Addr →
    Option (Option (Addr × Option Addr))
  | 0, _, _ => none
  | fuel + 1, pos, pprev =>
    if pos = 0 then some none
    else
      let prev := pos.addr
      if (mem.item prev).keyLen.toNat = key.length ∧ (mem.item prev).key = key then
        some (some (prev, pprev))
      else findIn mem key fuel (mem.item prev).hNext (some prev)

/-- `find`; no item is `NULL`. -/
def find (s : Store) (key : List UInt8) : Option (Option Addr) :=
  if key.length = 0 then none
  else
    (findIn s.mem key (maxItems + 1) (s.hashtable (s.getBucketIndex key)) none).map
      fun found => found.map Prod.fst

/-- `insert` -/
def insert (s : Store) (a : Addr) : Store :=
  let idx := s.getBucketIndex (s.mem.item a).key
  { s with
    mem := s.mem.setItem a fun it => { it with hNext := s.hashtable idx }
    hashtable := Function.update s.hashtable idx (s.mem.item a).itemId }

/-- `remove`, whose answer no caller looks at. -/
def remove (s : Store) (a : Addr) : Option Store :=
  let key := (s.mem.item a).key
  let idx := s.getBucketIndex key
  match findIn s.mem key (maxItems + 1) (s.hashtable idx) none with
  | none => none
  | some none => some s
  | some (some (prev, pprev)) =>
    let next := (s.mem.item prev).hNext
    let s :=
      match pprev with
      | some pprev => s.setItem pprev fun it => { it with hNext := next }
      | none => { s with hashtable := Function.update s.hashtable idx next }
    some (s.setItem prev fun it => { it with hNext := 0 })

end Store

end Mdb
