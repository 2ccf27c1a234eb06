import Mathlib.Data.List.Basic

namespace ReleaseAcquire

/-- An atomic word with its modification history. Each entry is a stored value
and the payload its release store publishes. -/
structure Location (ν π : Type*) where
  entries : List (ν × π)

/-- What one party knows of a location: the index of the newest entry it has
loaded or stored, and the payload it sees. -/
structure View (π : Type*) where
  seen : Nat
  payload : π

variable {ν π : Type*}

/-- An acquire load of the entry `pick`, which may be any that is not older
than what the party has seen. It makes the payload of the entry visible. -/
def Location.load (l : Location ν π) (view : View π) (pick : Nat) : Option (ν × View π) :=
  if view.seen ≤ pick then
    l.entries[pick]?.map fun entry => (entry.1, ⟨pick, entry.2⟩)
  else none

/-- A release store, which carries the payload the party sees. -/
def Location.store (l : Location ν π) (view : View π) (value : ν) : Location ν π :=
  ⟨l.entries ++ [(value, view.payload)]⟩

/-- What the party knows after its own release store. -/
def View.stored (view : View π) (l : Location ν π) : View π := ⟨l.entries.length, view.payload⟩

/-- A plain write of the payload. -/
def View.write (view : View π) (payload : π) : View π := ⟨view.seen, payload⟩

def Location.newest (l : Location ν π) : Option ν := l.entries.getLast?.map Prod.fst

variable {l : Location ν π} {view view' : View π} {pick k : Nat} {value v : ν} {p : π}

theorem load_eq_some (loaded : l.load view pick = some (value, view')) :
    view.seen ≤ pick ∧ pick < l.entries.length ∧ view'.seen = pick ∧
      l.entries[pick]? = some (value, view'.payload) := by
  unfold Location.load at loaded
  split at loaded
  · rename_i fresh
    obtain ⟨entry, atPick, same⟩ := Option.map_eq_some_iff.mp loaded
    cases same
    exact ⟨fresh, (List.getElem?_eq_some_iff.mp atPick).1, rfl, atPick⟩
  · cases loaded

theorem newest_store : (l.store view value).newest = some value := by
  simp only [Location.store, Location.newest, List.getLast?_concat, Option.map_some]

theorem length_store : (l.store view value).entries.length = l.entries.length + 1 := by
  rw [Location.store, List.length_append, List.length_singleton]

/-- After a store an index holds the new entry or what it held before. -/
theorem store_entry (atIndex : (l.store view value).entries[k]? = some (v, p)) :
    l.entries[k]? = some (v, p) ∨ k = l.entries.length ∧ v = value ∧ p = view.payload := by
  simp only [Location.store] at atIndex
  by_cases last : k = l.entries.length
  · subst last
    rw [List.getElem?_concat_length] at atIndex
    cases atIndex
    exact Or.inr ⟨rfl, rfl, rfl⟩
  · have bound := (List.getElem?_eq_some_iff.mp atIndex).1
    rw [List.length_append, List.length_singleton] at bound
    rw [List.getElem?_append_left (by omega)] at atIndex
    exact Or.inl atIndex

end ReleaseAcquire
