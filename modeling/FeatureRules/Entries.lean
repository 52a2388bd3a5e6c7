/-!
# Ordered entries

Lists of values under keys, in the order in which the keys were first entered.
-/

namespace FeatureRules

namespace Entries

variable {κ α : Type} [DecidableEq κ]

/-- Enter a value under a key. A key that is there keeps its place and gets the new value. -/
def insert (key : κ) (value : α) : List (κ × α) → List (κ × α)
  | [] => [(key, value)]
  | (present, old) :: rest =>
      if present = key then (present, value) :: rest
      else (present, old) :: insert key value rest

theorem lookup_insert
    [BEq κ] [LawfulBEq κ] (key other : κ) (value : α) (entries : List (κ × α)) :
    (insert key value entries).lookup other =
      if other = key then some value else entries.lookup other := by
  induction entries with
  | nil =>
      by_cases same : other = key
      · simp [insert, same]
      · simp [insert, List.lookup_cons, beq_eq_false_iff_ne.mpr same, same]
  | cons entry rest inductionHypothesis =>
      obtain ⟨present, old⟩ := entry
      by_cases found : present = key
      · by_cases same : other = key
        · simp [insert, found, same]
        · simp [insert, found, List.lookup_cons, beq_eq_false_iff_ne.mpr same, same]
      · by_cases same : other = present
        · simp [insert, found, same]
        · simp [insert, found, List.lookup_cons, beq_eq_false_iff_ne.mpr same,
            inductionHypothesis]

def ofList (entries : List (κ × α)) : List (κ × α) :=
  entries.foldl (fun done entry => insert entry.1 entry.2 done) []

end Entries

end FeatureRules
