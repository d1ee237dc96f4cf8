import Mathlib.Data.List.Perm.Basic
import WirePlan.Keyed

/-!
# Dictionaries in key order are told apart by lookups

Two dictionaries in key order that find the same under every key are the same list
(`Keyed.Sorted.ext`).
-/

namespace WirePlan.Keyed

variable {α : Type}

/-- A key is not found exactly when it is none of the keys. -/
theorem find?_eq_none {d : Keyed α} {key : String} : find? d key = none ↔ key ∉ keys d := by
  induction d with
  | nil => simp [find?, keys]
  | cons e rest ih =>
    obtain ⟨k, v⟩ := e
    rw [find?, keys, List.map_cons, List.mem_cons, not_or]
    split
    · next h => simp [h]
    · next h => exact ih.trans ⟨fun hrest => ⟨fun hk => h hk.symm, hrest⟩, fun hboth => hboth.2⟩

/-- A key is found exactly when it is one of the keys. -/
theorem isSome_find? {d : Keyed α} {key : String} : (find? d key).isSome = true ↔ key ∈ keys d := by
  rw [Option.isSome_iff_ne_none, Ne, find?_eq_none, not_not]

/-- An entry is found under its key. -/
theorem Sorted.find?_eq_some {d : Keyed α} (h : Sorted d) {key : String} {value : α} :
    find? d key = some value ↔ (key, value) ∈ d := by
  induction d with
  | nil => simp [find?]
  | cons e rest ih =>
    obtain ⟨k, v⟩ := e
    obtain ⟨hfirst, hrest⟩ := List.pairwise_cons.1 h
    rw [find?, List.mem_cons]
    split
    · next hk =>
      subst hk
      constructor
      · rintro ⟨⟩
        exact .inl rfl
      · rintro (heq | hmem)
        · cases heq
          rfl
        · exact absurd (hfirst k (List.mem_map_of_mem hmem)) (String.lt_irrefl k)
    · next hk =>
      rw [ih hrest]
      constructor
      · exact .inr
      · rintro (heq | hmem)
        · cases heq
          exact absurd rfl hk
        · exact hmem

/-- **Dictionaries in key order are told apart by lookups.** -/
theorem Sorted.ext {d e : Keyed α} (hd : Sorted d) (he : Sorted e)
    (h : ∀ key, find? d key = find? e key) : d = e := by
  have hrising : ∀ {d : Keyed α}, Sorted d → d.Pairwise (fun x y => x.1 < y.1) :=
    fun hd => List.pairwise_map.1 hd
  have hnodup : ∀ {d : Keyed α}, Sorted d → d.Nodup := by
    intro d hd
    refine (hrising hd).imp ?_
    rintro x y hlt rfl
    exact String.lt_irrefl _ hlt
  have hperm : d.Perm e := by
    refine (List.perm_ext_iff_of_nodup (hnodup hd) (hnodup he)).2 fun x => ?_
    rw [← hd.find?_eq_some, ← he.find?_eq_some, h]
  exact hperm.eq_of_pairwise
    (fun _ _ _ _ hlt hgt => absurd hgt (String.lt_asymm hlt)) (hrising hd) (hrising he)

end WirePlan.Keyed
