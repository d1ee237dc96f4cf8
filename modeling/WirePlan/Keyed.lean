/-!
# Dictionaries in key order

A dictionary is the list of its entries with the keys rising, so that two dictionaries with the same
entries are the same list. `insert` keeps the order (`Keyed.sorted_insert`) and replaces the value
of a key that is there already; looking a key up after an insertion sees that insertion and nothing
else (`Keyed.find?_insert`).
-/

namespace WirePlan

/-- The entries of a dictionary. -/
abbrev Keyed (α : Type) := List (String × α)

namespace Keyed

variable {α : Type}

/-- The value of a key. -/
def find? : Keyed α → String → Option α
  | [], _ => none
  | (k, v) :: rest, key => if k = key then some v else find? rest key

/-- The dictionary with the key's value set. -/
def insert : Keyed α → String → α → Keyed α
  | [], key, value => [(key, value)]
  | (k, v) :: rest, key, value =>
    if key = k then (key, value) :: rest
    else if key < k then (key, value) :: (k, v) :: rest
    else (k, v) :: insert rest key value

/-- The dictionary of a list of entries; of several values for one key the last one counts. -/
def ofList (entries : List (String × α)) : Keyed α :=
  entries.foldl (fun d e => insert d e.1 e.2) []

/-- The keys, in order. -/
def keys (d : Keyed α) : List String := d.map Prod.fst

/-- The keys rise strictly, so none stands twice. -/
def Sorted (d : Keyed α) : Prop := (keys d).Pairwise (· < ·)

theorem find?_insert (d : Keyed α) (key : String) (value : α) (other : String) :
    find? (insert d key value) other = if key = other then some value else find? d other := by
  induction d with
  | nil => simp [insert, find?]
  | cons e rest ih =>
    obtain ⟨k, v⟩ := e
    unfold insert
    split
    · next h => subst h; by_cases h' : key = other <;> simp [find?, h']
    · next h =>
      split
      · by_cases h' : key = other <;> simp [find?, h']
      · by_cases h' : k = other
        · subst h'; simp [find?, h]
        · simp [find?, h', ih]

/-- The keys after an insertion are the new key and the keys before. -/
theorem mem_keys_insert (d : Keyed α) (key : String) (value : α) (other : String) :
    other ∈ keys (insert d key value) ↔ other = key ∨ other ∈ keys d := by
  induction d with
  | nil => simp [insert, keys]
  | cons e rest ih =>
    obtain ⟨k, v⟩ := e
    unfold insert
    split
    · next h => subst h; simp [keys]
    · split
      · simp [keys]
      · simp only [keys, List.map_cons, List.mem_cons] at ih ⊢
        rw [ih]
        constructor <;> rintro (h | h | h) <;> simp [h]

/-- Insertion keeps the keys in order. -/
theorem sorted_insert {d : Keyed α} (h : Sorted d) (key : String) (value : α) :
    Sorted (insert d key value) := by
  induction d with
  | nil => simp [insert, Sorted, keys]
  | cons e rest ih =>
    obtain ⟨k, v⟩ := e
    simp only [Sorted, keys, List.map_cons, List.pairwise_cons] at h
    unfold insert
    split
    · next hk =>
      subst hk
      simpa [Sorted, keys] using h
    · next hk =>
      split
      · next hlt =>
        simp only [Sorted, keys, List.map_cons, List.pairwise_cons, List.mem_cons]
        refine ⟨?_, h.1, h.2⟩
        rintro x (rfl | hx)
        · exact hlt
        · exact String.lt_trans hlt (h.1 x hx)
      · next hlt =>
        have hgt : k < key := by
          rcases String.le_total k key with hle | hle
          · exact Decidable.byContradiction fun hn =>
              hk (String.le_antisymm (String.not_lt.1 hn) hle)
          · exact absurd (Decidable.byContradiction fun hn =>
              hk (String.le_antisymm hle (String.not_lt.1 hn))) hlt
        have hrest := ih h.2
        simp only [Sorted, keys, List.map_cons, List.pairwise_cons]
        refine ⟨fun x hx => ?_, hrest⟩
        rcases (mem_keys_insert rest key value x).1 hx with rfl | hx
        · exact hgt
        · exact h.1 x hx

end Keyed

end WirePlan
