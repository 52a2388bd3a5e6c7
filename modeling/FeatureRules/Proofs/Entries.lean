import FeatureRules.Entries
import Mathlib.Data.List.Nodup

/-!
# Entries under keys

Under distinct keys, looking a key up finds its one entry. Entering a value under a key keeps keys
distinct, and a new key goes to the end.
-/

namespace FeatureRules

/-! ## Look-up -/

/-- In a list with distinct keys, looking a key up finds the one entry that has it. -/
theorem lookup_eq_some_iff_mem {κ α : Type} [BEq κ] [LawfulBEq κ] {entries : List (κ × α)}
    (distinct : (entries.map Prod.fst).Nodup) {key : κ} {value : α} :
    entries.lookup key = some value ↔ (key, value) ∈ entries := by
  constructor
  · intro found
    obtain ⟨before, after, rfl, _⟩ := List.lookup_eq_some_iff.mp found
    exact List.mem_append_right before List.mem_cons_self
  · intro member
    have present : (entries.lookup key).isSome := by
      rw [List.lookup_isSome_iff]
      exact ⟨(key, value), member, beq_self_eq_true key⟩
    obtain ⟨other, found⟩ := Option.isSome_iff_exists.mp present
    obtain ⟨before, after, split, _⟩ := List.lookup_eq_some_iff.mp found
    have otherMember : (key, other) ∈ entries := by
      rw [split]
      exact List.mem_append_right before List.mem_cons_self
    have same : (key, other) = (key, value) :=
      List.inj_on_of_nodup_map distinct otherMember member rfl
    rw [found, (Prod.mk.inj same).2]

theorem find?_name_eq_some_iff
    {α : Type} {name : α → String} {entries : List α}
    (distinct : (entries.map name).Nodup) {key : String} {entry : α} :
    entries.find? (fun other => name other == key) = some entry ↔
      entry ∈ entries ∧ name entry = key := by
  constructor
  · intro found
    exact ⟨List.mem_of_find?_eq_some found, by simpa using List.find?_some found⟩
  · intro listed
    rcases listed with ⟨member, rfl⟩
    have present : (entries.find? fun other => name other == name entry).isSome := by
      rw [List.find?_isSome]
      exact ⟨entry, member, beq_self_eq_true _⟩
    obtain ⟨found, isFound⟩ := Option.isSome_iff_exists.mp present
    have foundMember : found ∈ entries := List.mem_of_find?_eq_some isFound
    have sameName : name found = name entry := by
      simpa using List.find?_some isFound
    rw [isFound, List.inj_on_of_nodup_map distinct foundMember member sameName]

/-! ## Entering values -/

namespace Entries

variable {κ α : Type} [DecidableEq κ]

theorem insert_insert (key : κ) (value : α) (entries : List (κ × α)) :
    insert key value (insert key value entries) = insert key value entries := by
  induction entries with
  | nil => simp [insert]
  | cons entry rest inductionHypothesis =>
      obtain ⟨present, old⟩ := entry
      by_cases found : present = key
      · simp [insert, found]
      · simp [insert, found, inductionHypothesis]

theorem eq_or_mem_of_mem_insert
    {key : κ} {value : α} {entries : List (κ × α)} {entry : κ × α}
    (member : entry ∈ insert key value entries) :
    entry = (key, value) ∨ entry ∈ entries := by
  induction entries with
  | nil => exact Or.inl (List.mem_singleton.mp member)
  | cons first rest inductionHypothesis =>
      rw [insert] at member
      split at member
      · next found =>
          rw [List.mem_cons, found] at member
          exact member.imp_right (List.mem_cons_of_mem first)
      · rw [List.mem_cons] at member ⊢
        rcases member with same | later
        · exact Or.inr (Or.inl same)
        · exact (inductionHypothesis later).imp_right Or.inr

theorem mem_keys_of_insert
    {key other : κ} {value : α} {entries : List (κ × α)}
    (member : other ∈ (insert key value entries).map Prod.fst) :
    other = key ∨ other ∈ entries.map Prod.fst := by
  rcases List.mem_map.mp member with ⟨entry, entered, rfl⟩
  rcases eq_or_mem_of_mem_insert entered with rfl | there
  · exact Or.inl rfl
  · exact Or.inr (List.mem_map_of_mem there)

theorem nodup_keys_insert
    (key : κ) (value : α) {entries : List (κ × α)} (distinct : (entries.map Prod.fst).Nodup) :
    ((insert key value entries).map Prod.fst).Nodup := by
  induction entries with
  | nil => exact List.nodup_singleton key
  | cons entry rest inductionHypothesis =>
      obtain ⟨fresh, later⟩ := List.nodup_cons.mp distinct
      rw [insert]
      split
      · exact distinct
      · rename_i different
        refine List.nodup_cons.mpr ⟨?_, inductionHypothesis later⟩
        intro member
        exact (mem_keys_of_insert member).elim different fresh

theorem insert_of_not_mem
    {key : κ} (value : α) {entries : List (κ × α)} (fresh : key ∉ entries.map Prod.fst) :
    insert key value entries = entries ++ [(key, value)] := by
  induction entries with
  | nil => rfl
  | cons first rest inductionHypothesis =>
      rw [List.map_cons, List.mem_cons, not_or] at fresh
      rw [insert, if_neg (Ne.symm fresh.1), inductionHypothesis fresh.2, List.cons_append]

/-- Entries under distinct keys are listed as they come. -/
theorem ofList_of_nodup
    {entries : List (κ × α)} (distinct : (entries.map Prod.fst).Nodup) :
    ofList entries = entries := by
  have entered : ∀ done : List (κ × α), ((done ++ entries).map Prod.fst).Nodup →
      entries.foldl (fun done entry => insert entry.1 entry.2 done) done = done ++ entries := by
    induction entries with
    | nil =>
        intro done _
        exact (List.append_nil done).symm
    | cons entry rest inductionHypothesis =>
        intro done apart
        have fresh : entry.1 ∉ done.map Prod.fst := by
          rw [List.map_append] at apart
          intro member
          exact (List.nodup_append'.mp apart).2.2 member List.mem_cons_self
        have grown : done ++ entry :: rest = (done ++ [entry]) ++ rest := by simp
        rw [List.foldl_cons, insert_of_not_mem entry.2 fresh, grown]
        rw [grown] at apart
        exact inductionHypothesis (List.nodup_cons.mp distinct).2 (done ++ [entry]) apart
  exact entered [] distinct

end Entries

end FeatureRules
