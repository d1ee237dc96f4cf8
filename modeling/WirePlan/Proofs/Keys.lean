import Mathlib.Data.List.Nodup

/-!
# Lists whose keys stand once

A walk that holds the keys before it tells whether keys stand once (`nodup_keys_cons`). Where they
do, what is found under a key is the item with the key (`find?_key_eq_some`), in whatever order the
items stand (`find?_key_of_perm`).
-/

namespace WirePlan

variable {α κ : Type} {key : α → κ}

/-- Keys stand once and avoid those before exactly when the first one avoids these and the others
avoid it too. -/
theorem nodup_keys_cons {x : α} {rest : List α} {seen : List κ} :
    (((x :: rest).map key).Nodup ∧ ∀ y ∈ x :: rest, key y ∉ seen) ↔
      key x ∉ seen ∧ (rest.map key).Nodup ∧ ∀ y ∈ rest, key y ∉ key x :: seen := by
  simp only [List.map_cons, List.nodup_cons, List.mem_map, List.mem_cons, forall_eq_or_imp, not_or]
  constructor
  · rintro ⟨⟨hfresh, hnodup⟩, hx, hrest⟩
    exact ⟨hx, hnodup, fun y hy => ⟨fun heq => hfresh ⟨y, hy, heq⟩, hrest y hy⟩⟩
  · rintro ⟨hx, hnodup, hrest⟩
    exact ⟨⟨fun ⟨y, hy, heq⟩ => (hrest y hy).1 heq, hnodup⟩, hx, fun y hy => (hrest y hy).2⟩

variable [DecidableEq κ] {xs ys : List α}

/-- Where keys stand once, what is found under a key is the item with the key. -/
theorem find?_key_eq_some (hnodup : (xs.map key).Nodup) {k : κ} {x : α} :
    xs.find? (fun y => key y = k) = some x ↔ x ∈ xs ∧ key x = k := by
  constructor
  · intro h
    exact ⟨List.mem_of_find?_eq_some h, by simpa using List.find?_some h⟩
  · rintro ⟨hx, rfl⟩
    cases hfound : xs.find? (fun y => key y = key x) with
    | none =>
      have hother : key x ≠ key x := by simpa using List.find?_eq_none.1 hfound x hx
      exact absurd rfl hother
    | some y =>
      have hkey : key y = key x := by simpa using List.find?_some hfound
      rw [List.inj_on_of_nodup_map hnodup (List.mem_of_find?_eq_some hfound) hx hkey]

/-- Where keys stand once, the order does not matter for what is found under a key. -/
theorem find?_key_of_perm (hperm : xs.Perm ys) (hnodup : (xs.map key).Nodup) (k : κ) :
    ys.find? (fun y => key y = k) = xs.find? (fun y => key y = k) := by
  have hnodup' : (ys.map key).Nodup := (hperm.map key).nodup_iff.1 hnodup
  refine Option.ext fun x => ?_
  rw [find?_key_eq_some hnodup, find?_key_eq_some hnodup', hperm.mem_iff]

end WirePlan
