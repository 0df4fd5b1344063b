/-! # Insertion-ordered finite maps

A finite map that remembers the order in which its keys were inserted. The list
of entries carries the proof that no key occurs twice.
-/

namespace SystemsRepository.Foundation

structure OrderedMap (Key : Type u) (Value : Type v) where
  entries : List (Key × Value)
  nodup : (entries.map Prod.fst).Nodup

namespace OrderedMap

variable {Key : Type u} {Value : Type v}

def keys (map : OrderedMap Key Value) : List Key := map.entries.map Prod.fst

def empty : OrderedMap Key Value := ⟨[], .nil⟩

@[ext] theorem ext {left right : OrderedMap Key Value}
    (same : left.entries = right.entries) : left = right := by
  cases left
  cases right
  cases same
  rfl

section Operations

variable [DecidableEq Key]

def insertNew (key : Key) (value : Value) (map : OrderedMap Key Value) :
    OrderedMap Key Value :=
  if absent : key ∈ map.keys then map
  else
    { entries := map.entries ++ [(key, value)]
      nodup := by
        rw [List.map_append]
        apply List.nodup_append.mpr
        refine ⟨map.nodup, by simp, ?_⟩
        intro first member second added equal
        rw [List.map_singleton, List.mem_singleton] at added
        have same : first = key := equal.trans added
        exact absent (same ▸ member) }

def erase (key : Key) (map : OrderedMap Key Value) : OrderedMap Key Value where
  entries := map.entries.filter fun entry => entry.1 ≠ key
  nodup := map.nodup.sublist ((List.filter_sublist).map Prod.fst)

/-- Erase the key, then append it with its new value. -/
def replace (key : Key) (value : Value) (map : OrderedMap Key Value) :
    OrderedMap Key Value :=
  (map.erase key).insertNew key value

theorem insertNew_of_mem {key : Key} {map : OrderedMap Key Value} (present : key ∈ map.keys)
    (value : Value) : map.insertNew key value = map := by
  rw [insertNew, dif_pos present]

theorem entries_insertNew_of_not_mem {key : Key} {map : OrderedMap Key Value}
    (absent : key ∉ map.keys) (value : Value) :
    (map.insertNew key value).entries = map.entries ++ [(key, value)] := by
  rw [insertNew, dif_neg absent]

theorem find_of_mem {key : Key} {value : Value} {map : OrderedMap Key Value}
    (member : (key, value) ∈ map.entries) :
    map.entries.find? (fun entry => entry.1 = key) = some (key, value) := by
  rcases map with ⟨entries, unique⟩
  induction entries with
  | nil => cases member
  | cons head tail induction =>
      rw [List.map_cons, List.nodup_cons] at unique
      rcases List.mem_cons.mp member with rfl | inTail
      · simp
      · have different : head.1 ≠ key := by
          intro equal
          apply unique.1
          exact equal ▸ List.mem_map.mpr ⟨(key, value), inTail, rfl⟩
        rw [List.find?_cons_of_neg (by simpa using different)]
        exact induction unique.2 inTail

end Operations

end OrderedMap

end SystemsRepository.Foundation
