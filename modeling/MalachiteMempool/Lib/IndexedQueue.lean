import Mathlib.Data.List.AList
import Mathlib.Data.List.Sort
import Mathlib.Data.List.Perm.Basic

/-! # Queues with a hash index

A queue of values is kept beside an index from keys to queue positions.  What
the pair means is a single list of key/value pairs in queue order:
`Represents` says that the index sends a key to a position exactly when the
pair at that position carries the key.  The bijection between keys and
positions is a consequence, not a separate field.

A hash map is an association list with distinct keys whose iteration order is
not part of its value.  An `IterOrder` is one choice the map may make when it
is iterated; statements about iteration quantify over all of them.
-/

namespace IndexedQueue

abbrev Entry (K : Type*) := (_ : K) × Nat

/-- A map from keys to queue positions. -/
abbrev Index (K : Type*) := AList (fun _ : K => Nat)

/-- The order in which a hash map hands out its entries. -/
structure IterOrder (K : Type*) where
  arrange : List (Entry K) → List (Entry K)
  perm : ∀ entries, (arrange entries).Perm entries

def IterOrder.stored (K : Type*) : IterOrder K := ⟨id, fun _ => List.Perm.refl _⟩

variable {K V : Type*}

/-- The index entries of a queue, by increasing position. -/
def entriesOf (queue : List (K × V)) : List (Entry K) :=
  queue.zipIdx.map (fun row => ⟨row.1.1, row.2⟩)

/-- The pair an index entry stands for, when its position is in range. -/
def resolve (items : List V) (entry : Entry K) : Option (K × V) :=
  items[entry.2]?.map (fun value => (entry.1, value))

theorem mem_entriesOf {queue : List (K × V)} {entry : Entry K} :
    entry ∈ entriesOf queue ↔ (queue.map Prod.fst)[entry.2]? = some entry.1 := by
  obtain ⟨k, i⟩ := entry
  simp only [entriesOf, List.mem_map, List.getElem?_map, Option.map_eq_some_iff]
  constructor
  · rintro ⟨⟨pair, j⟩, member, same⟩
    obtain ⟨rfl, rfl⟩ := Sigma.mk.inj_iff.mp same
    exact ⟨pair, List.mem_zipIdx_iff_getElem?.mp member, rfl⟩
  · rintro ⟨pair, atPosition, rfl⟩
    exact ⟨(pair, i), List.mem_zipIdx_iff_getElem?.mpr atPosition, rfl⟩

theorem entriesOf_positions (queue : List (K × V)) :
    (entriesOf queue).map Sigma.snd = List.range queue.length := by
  simp [entriesOf, Function.comp_def, List.range_eq_range']

theorem entriesOf_increasing (queue : List (K × V)) :
    (entriesOf queue).Pairwise (fun a b => a.2 < b.2) := by
  have positions : ((entriesOf queue).map Sigma.snd).Pairwise (· < ·) := by
    rw [entriesOf_positions]
    exact List.pairwise_lt_range
  exact List.pairwise_map.mp positions

theorem entriesOf_keys (queue : List (K × V)) :
    (entriesOf queue).map Sigma.fst = queue.map Prod.fst := by
  calc
    (entriesOf queue).map Sigma.fst = (queue.zipIdx.map Prod.fst).map Prod.fst := by
      simp only [entriesOf, List.map_map, Function.comp_def]
    _ = queue.map Prod.fst := by rw [List.zipIdx_map_fst]

/-- Reading the entries of a queue back in position order gives the queue,
    also after dropping the entries of some keys. -/
theorem filterMap_resolve_entriesOf (queue : List (K × V)) (keep : K → Bool) :
    ((entriesOf queue).filter (fun e => keep e.1)).filterMap (resolve (queue.map Prod.snd)) =
      queue.filter (fun pair => keep pair.1) := by
  have resolved : ∀ row ∈ queue.zipIdx,
      resolve (queue.map Prod.snd) (⟨row.1.1, row.2⟩ : Entry K) = some row.1 := by
    rintro ⟨pair, i⟩ member
    have atPosition := List.mem_zipIdx_iff_getElem?.mp member
    simp [resolve, atPosition]
  calc
    ((entriesOf queue).filter (fun e => keep e.1)).filterMap (resolve (queue.map Prod.snd))
      = (queue.zipIdx.filter (fun row => keep row.1.1)).filterMap (fun row => some row.1) := by
        rw [entriesOf, List.filter_map, List.filterMap_map]
        apply List.filterMap_congr
        intro row member
        exact resolved row (List.mem_of_mem_filter member)
    _ = (queue.zipIdx.filter (fun row => keep row.1.1)).map Prod.fst := by
        rw [← List.filterMap_eq_map]
        rfl
    _ = (queue.zipIdx.map Prod.fst).filter (fun pair => keep pair.1) := by
        rw [List.filter_map]
        rfl
    _ = queue.filter (fun pair => keep pair.1) := by rw [List.zipIdx_map_fst]

variable [DecidableEq K]

/-- `items` and `index` together hold exactly this list of pairs. -/
structure Represents (items : List V) (index : Index K) (queue : List (K × V)) : Prop where
  items_eq : items = queue.map Prod.snd
  lookup_iff : ∀ k i, index.lookup k = some i ↔ (queue.map Prod.fst)[i]? = some k

theorem represents_nil : Represents ([] : List V) (∅ : Index K) [] :=
  ⟨rfl, by simp⟩

/-- Erasing a key keeps the order of the other entries. -/
theorem entries_erase (index : Index K) (k : K) :
    (index.erase k).entries = index.entries.filter (fun e => decide (e.1 ≠ k)) := by
  obtain ⟨entries, distinct⟩ := index
  change entries.kerase k = _
  induction entries with
  | nil => rfl
  | cons entry rest ih =>
      obtain ⟨absent, restDistinct⟩ := List.nodupKeys_cons.mp distinct
      by_cases same : k = entry.1
      · subst same
        have kept : rest.filter (fun e => decide (e.1 ≠ entry.1)) = rest := by
          apply List.filter_eq_self.mpr
          intro other member
          have different : other.1 ≠ entry.1 := fun same =>
            absent (same ▸ List.mem_keys_of_mem member)
          simpa using different
        rw [List.kerase_cons_eq rfl, List.filter_cons_of_neg (by simp), kept]
      · have different : entry.1 ≠ k := fun other => same other.symm
        simp [List.kerase_cons_ne same, different, ih restDistinct]

namespace Represents

variable {items : List V} {index : Index K} {queue : List (K × V)}

theorem length_eq (rep : Represents items index queue) : items.length = queue.length := by
  rw [rep.items_eq, List.length_map]

theorem lookup_lt (rep : Represents items index queue) {k : K} {i : Nat}
    (found : index.lookup k = some i) : i < items.length := by
  have bounded := (List.getElem?_eq_some_iff.mp ((rep.lookup_iff k i).mp found)).1
  simpa [rep.length_eq] using bounded

/-- No position has two keys. -/
theorem lookup_injective (rep : Represents items index queue) {k k' : K} {i : Nat}
    (found : index.lookup k = some i) (found' : index.lookup k' = some i) : k = k' :=
  Option.some.inj (((rep.lookup_iff k i).mp found).symm.trans ((rep.lookup_iff k' i).mp found'))

theorem keys_nodup (rep : Represents items index queue) : (queue.map Prod.fst).Nodup := by
  rw [List.nodup_iff_injective_get]
  intro a b same
  have ha := (rep.lookup_iff _ a.1).mpr (List.getElem?_eq_getElem a.2)
  have hb := (rep.lookup_iff _ b.1).mpr (List.getElem?_eq_getElem b.2)
  simp only [List.get_eq_getElem] at same
  rw [same, hb] at ha
  exact Fin.ext (Option.some.inj ha).symm

theorem nodup (rep : Represents items index queue) : queue.Nodup :=
  List.Nodup.of_map _ rep.keys_nodup

theorem mem_iff (rep : Represents items index queue) {k : K} :
    k ∈ index ↔ k ∈ queue.map Prod.fst := by
  rw [← AList.lookup_isSome, Option.isSome_iff_exists, List.mem_iff_getElem?]
  simp only [rep.lookup_iff]

/-- The value stored under a key is the second half of its pair. -/
theorem value_iff (rep : Represents items index queue) {k : K} {v : V} :
    (index.lookup k).bind (fun i => items[i]?) = some v ↔ (k, v) ∈ queue := by
  simp only [Option.bind_eq_some_iff, rep.lookup_iff, rep.items_eq, List.getElem?_map,
    Option.map_eq_some_iff]
  constructor
  · rintro ⟨i, ⟨pair, atPosition, rfl⟩, other, atPosition', rfl⟩
    obtain rfl := Option.some.inj (atPosition.symm.trans atPosition')
    exact List.mem_of_getElem? atPosition
  · intro member
    obtain ⟨i, atPosition⟩ := List.mem_iff_getElem?.mp member
    exact ⟨i, ⟨(k, v), atPosition, rfl⟩, (k, v), atPosition, rfl⟩

/-- Items and index leave no freedom in the list they stand for. -/
theorem unique {other : List (K × V)} (rep : Represents items index queue)
    (rep' : Represents items index other) : queue = other := by
  have keys : queue.map Prod.fst = other.map Prod.fst := by
    apply List.ext_getElem?
    intro i
    apply Option.ext
    intro k
    exact (rep.lookup_iff k i).symm.trans (rep'.lookup_iff k i)
  have values : queue.map Prod.snd = other.map Prod.snd := rep.items_eq.symm.trans rep'.items_eq
  rw [← List.zip_unzip queue, ← List.zip_unzip other, List.unzip_eq_map, List.unzip_eq_map, keys,
    values]

/-- Appending a pair under a fresh key. -/
theorem push (rep : Represents items index queue) {k : K} (fresh : k ∉ index) (v : V) :
    Represents (items ++ [v]) (index.insert k items.length) (queue ++ [(k, v)]) := by
  refine ⟨by simp [rep.items_eq], fun key i => ?_⟩
  have absent : k ∉ queue.map Prod.fst := fun member => fresh (rep.mem_iff.mpr member)
  have size : (queue.map Prod.fst).length = items.length := by simp [rep.length_eq]
  rw [List.map_append, List.map_singleton]
  by_cases same : key = k
  · subst same
    rw [AList.lookup_insert, Option.some.injEq, ← size]
    constructor
    · rintro rfl
      simp
    · intro atPosition
      rcases Nat.lt_or_ge i (queue.map Prod.fst).length with inside | beyond
      · rw [List.getElem?_append_left inside] at atPosition
        exact absurd (List.mem_of_getElem? atPosition) absent
      · have inRange := (List.getElem?_eq_some_iff.mp atPosition).1
        simp only [List.length_append, List.length_singleton] at inRange
        omega
  · rw [AList.lookup_insert_ne same, rep.lookup_iff]
    rcases Nat.lt_or_ge i (queue.map Prod.fst).length with inside | beyond
    · rw [List.getElem?_append_left inside]
    · rw [List.getElem?_append_right beyond, List.getElem?_eq_none beyond]
      constructor
      · intro impossible
        cases impossible
      · intro atPosition
        have last := List.mem_of_getElem? atPosition
        exact absurd (List.mem_singleton.mp last) same

/-- The stored entries are those of the queue, in some order. -/
theorem entries_perm (rep : Represents items index queue) :
    index.entries.Perm (entriesOf queue) := by
  have distinct : index.entries.Nodup := List.NodupKeys.nodup index.nodupKeys
  have distinct' : (entriesOf queue).Nodup :=
    (entriesOf_increasing queue).imp (fun below same => absurd below (by simp [same]))
  refine (List.perm_ext_iff_of_nodup distinct distinct').mpr (fun entry => ?_)
  obtain ⟨k, i⟩ := entry
  rw [mem_entriesOf, ← AList.mem_lookup_iff, Option.mem_def]
  exact rep.lookup_iff k i

end Represents

end IndexedQueue
