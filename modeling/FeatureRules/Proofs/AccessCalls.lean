import FeatureRules.Proofs.GroupWiring
import FeatureRules.Proofs.Holders
import FeatureRules.Proofs.Reference.Split

/-!
# Calls that read a reference

Keys hold no quotation marks, so the quotation marks of a text part its getters from its keys. A chain
of calls is thus told from every other one by its text, however long the path is, and two references
have the same text only if they are read in the same way.
-/

namespace FeatureRules

/-! ## Texts up to a quotation mark -/

theorem quote_not_mem_of_isWord {word : String} (isWord : IsWord word) :
    '"' ∉ word.toList := by
  intro member
  have wordChar := isWord.2 '"' member
  revert wordChar
  decide

/-- Texts that go on behind their first quotation mark agree before it and behind it. -/
theorem eq_of_append_quote
    {front other rest otherRest : List Char}
    (noQuote : '"' ∉ front) (otherNoQuote : '"' ∉ other)
    (same : front ++ '"' :: rest = other ++ '"' :: otherRest) :
    front = other ∧ rest = otherRest := by
  induction front generalizing other with
  | nil =>
      cases other with
      | nil =>
          cases same
          exact ⟨rfl, rfl⟩
      | cons c other =>
          injection same with first _
          exact absurd (first ▸ List.mem_cons_self) otherNoQuote
  | cons c front inductionHypothesis =>
      cases other with
      | nil =>
          injection same with first _
          exact absurd (first ▸ List.mem_cons_self) noQuote
      | cons d other =>
          injection same with first later
          rw [List.mem_cons, not_or] at noQuote otherNoQuote
          obtain ⟨sameFront, sameRest⟩ := inductionHypothesis noQuote.2 otherNoQuote.2 later
          exact ⟨by rw [first, sameFront], sameRest⟩

/-! ## Chains of calls -/

namespace Getter

theorem ofName?_name (getter : Getter) : ofName? getter.name = some getter := by
  cases getter <;> decide

theorem name_injective : Function.Injective name := by
  intro first second same
  have found := ofName?_name first
  rw [same, ofName?_name second] at found
  exact (Option.some.inj found).symm

theorem quote_not_mem_name (getter : Getter) : '"' ∉ getter.name.toList := by
  cases getter <;> decide

theorem toList_call_append (getter : Getter) (key rest : String) :
    (getter.call key ++ rest).toList =
      ('.' :: getter.name.toList ++ ['(']) ++
        '"' :: (key.toList ++ '"' :: ')' :: rest.toList) := by
  simp [call]

/-- A call at the start of a text is told from every other one. -/
theorem eq_of_call_append
    {first second : Getter} {key otherKey rest otherRest : String}
    (noQuote : '"' ∉ key.toList) (otherNoQuote : '"' ∉ otherKey.toList)
    (same : first.call key ++ rest = second.call otherKey ++ otherRest) :
    first = second ∧ key = otherKey ∧ rest = otherRest := by
  have opening : ∀ getter : Getter, '"' ∉ '.' :: getter.name.toList ++ ['('] := by
    intro getter
    simp [getter.quote_not_mem_name]
  have letters := congrArg String.toList same
  rw [toList_call_append, toList_call_append] at letters
  obtain ⟨sameOpening, later⟩ := eq_of_append_quote (opening first) (opening second) letters
  obtain ⟨sameKey, ending⟩ := eq_of_append_quote noQuote otherNoQuote later
  have sameName : first.name = second.name := by
    apply String.toList_inj.mp
    simpa using sameOpening
  have sameRest : rest = otherRest := by
    apply String.toList_inj.mp
    simpa using ending
  exact ⟨name_injective sameName, String.toList_inj.mp sameKey, sameRest⟩

theorem call_append_ne_empty (getter : Getter) (key rest : String) :
    getter.call key ++ rest ≠ "" := by
  intro empty
  have letters := congrArg String.toList empty
  rw [toList_call_append] at letters
  cases letters

end Getter

namespace Reference

theorem pathCalls_cons
    (last : Getter) (segment : String) (rest : List String) :
    pathCalls last (segment :: rest) =
      (if rest = [] then last else Getter.getMap).call segment ++ pathCalls last rest := by
  cases rest with
  | nil => simp [pathCalls]
  | cons next rest => simp [pathCalls]

/-- The calls along a path tell its segments and, if there are any, the getter of the last one. -/
theorem pathCalls_eq_iff
    (last otherLast : Getter) {path other : List String}
    (noQuote : ∀ segment ∈ path, '"' ∉ segment.toList)
    (otherNoQuote : ∀ segment ∈ other, '"' ∉ segment.toList) :
    pathCalls last path = pathCalls otherLast other ↔
      path = other ∧ (path ≠ [] → last = otherLast) := by
  induction path generalizing other with
  | nil =>
      cases other with
      | nil => simp [pathCalls]
      | cons segment other =>
          rw [pathCalls_cons, pathCalls, eq_comm,
            iff_false_left (Getter.call_append_ne_empty _ _ _)]
          simp
  | cons segment path inductionHypothesis =>
      rw [List.forall_mem_cons] at noQuote
      cases other with
      | nil =>
          rw [pathCalls_cons, pathCalls, iff_false_left (Getter.call_append_ne_empty _ _ _)]
          simp
      | cons otherSegment other =>
          rw [List.forall_mem_cons] at otherNoQuote
          have later := inductionHypothesis noQuote.2 otherNoQuote.2
          constructor
          · intro same
            rw [pathCalls_cons, pathCalls_cons] at same
            obtain ⟨sameGetter, rfl, sameCalls⟩ :=
              Getter.eq_of_call_append noQuote.1 otherNoQuote.1 same
            obtain ⟨rfl, sameLast⟩ := later.mp sameCalls
            refine ⟨rfl, fun _ => ?_⟩
            -- This call has the last getter only where the path ends. Elsewhere both are `GetMap`.
            by_cases ended : path = []
            · simpa [ended] using sameGetter
            · exact sameLast ended
          · rintro ⟨samePath, sameLast⟩
            rw [samePath, sameLast (List.cons_ne_nil _ _)]

/-- The type that a name is read with: that of a cast right behind it, and otherwise the declared
one. -/
def rootType (reference : Reference) (declared : Option ValueType) : Option ValueType :=
  if reference.path = [] ∧ reference.cast ≠ none then reference.castType? else declared

theorem rootGetter_eq (reference : Reference) (declared : Option ValueType) :
    reference.rootGetter declared = Getter.ofType (reference.rootType declared) := by
  unfold rootGetter rootType
  split
  · next atEnd cast => simp [atEnd, cast]
  · next other =>
      rw [if_neg]
      rintro ⟨atEnd, cast⟩
      obtain ⟨type, written⟩ := Option.ne_none_iff_exists'.mp cast
      exact other type atEnd written

/-! ## Membership -/

theorem toList_membershipTest (name : String) :
    (membershipTest name).toList =
      "processor.Contains(ctx.GetSlice(\"".toList ++
        ((name.toList ++ "_entries".toList) ++
          '"' :: ("), ctx.Get(\"".toList ++ (name.toList ++ "_value\"))".toList))) := by
  rw [membershipTest_eq]
  simp

/-- The test of a group member tells its name. -/
theorem eq_of_membershipTest_eq
    {name other : String} (noQuote : '"' ∉ name.toList) (otherNoQuote : '"' ∉ other.toList)
    (same : membershipTest name = membershipTest other) :
    name = other := by
  have keyNoQuote : ∀ word : String, '"' ∉ word.toList →
      '"' ∉ word.toList ++ "_entries".toList := by
    intro word absent
    rw [List.mem_append, not_or]
    exact ⟨absent, by decide⟩
  have letters := congrArg String.toList same
  rw [toList_membershipTest, toList_membershipTest] at letters
  obtain ⟨sameKey, _⟩ :=
    eq_of_append_quote (keyNoQuote name noQuote) (keyNoQuote other otherNoQuote)
      (List.append_cancel_left letters)
  exact String.toList_inj.mp (List.append_cancel_right sameKey)

theorem startsWith_membershipTest (holder : Holder) (name : String) :
    startsWith (holder.name ++ ".") (membershipTest name) = false := by
  rw [startsWith, toList_membershipTest]
  cases holder <;> rfl

end Reference

/-! ## Texts of references -/

namespace Model

variable {model : Model}

theorem resolve_eq_none_iff (model : Model) (sigil : Sigil) (name : String) :
    model.resolve sigil name = none ↔ sigil = .membership := by
  cases sigil with
  | parameter => simp [resolve]
  | result => cases found : model.feature? name <;> simp [resolve, found]
  | synonym => cases found : model.feature? name <;> simp [resolve, found]
  | membership => simp [resolve]

theorem access_of_membership {mention : Reference} (isTest : mention.sigil = .membership) :
    mention.access model = Reference.membershipTest mention.name := by
  rw [Reference.access, (model.resolve_eq_none_iff _ _).mpr isTest]

theorem exists_resolve_of_ne_membership
    (model : Model) {mention : Reference} (reads : mention.sigil ≠ .membership) :
    ∃ target, model.resolve mention.sigil mention.name = some target := by
  rw [← Option.ne_none_iff_exists', ne_eq, resolve_eq_none_iff]
  exact reads

theorem access_of_resolve
    {mention : Reference} {target : Target}
    (resolved : model.resolve mention.sigil mention.name = some target) :
    mention.access model =
      target.holder.name ++
        ((Getter.ofType (mention.rootType target.type)).call mention.name ++
          Reference.pathCalls (Getter.ofType mention.castType?) mention.path) := by
  rw [Reference.access, resolved, ← Reference.rootGetter_eq, ← String.append_assoc]
  rfl

/-- Two references are read in the same way: from one holder, under one name and along one path, with
the same getter for the name and, where there is a path, for its last segment. -/
def SameCalls (model : Model) (first second : Reference) : Prop :=
  ∃ target other,
    model.resolve first.sigil first.name = some target ∧
      model.resolve second.sigil second.name = some other ∧
      target.holder = other.holder ∧
      first.name = second.name ∧
      first.path = second.path ∧
      Getter.ofType (first.rootType target.type) = Getter.ofType (second.rootType other.type) ∧
      (first.path ≠ [] → Getter.ofType first.castType? = Getter.ofType second.castType?)

variable {first second : Reference}

theorem access_eq_iff_of_resolve
    (wellFormed : first.WellFormed) (otherWellFormed : second.WellFormed)
    {target other : Target}
    (resolved : model.resolve first.sigil first.name = some target)
    (otherResolved : model.resolve second.sigil second.name = some other) :
    first.access model = second.access model ↔ model.SameCalls first second := by
  have sameEnds :=
    Reference.pathCalls_eq_iff (Getter.ofType first.castType?) (Getter.ofType second.castType?)
      (fun segment member => quote_not_mem_of_isWord (wellFormed.path segment member))
      (fun segment member => quote_not_mem_of_isWord (otherWellFormed.path segment member))
  constructor
  · intro same
    have starts := access_startsWith resolved
    rw [same] at starts
    have sameHolder := holder_eq_of_startsWith starts (access_startsWith otherResolved)
    rw [access_of_resolve resolved, access_of_resolve otherResolved, sameHolder,
      String.append_right_inj] at same
    obtain ⟨sameRoot, sameName, samePath⟩ :=
      Getter.eq_of_call_append (quote_not_mem_of_isWord wellFormed.name)
        (quote_not_mem_of_isWord otherWellFormed.name) same
    obtain ⟨sameSegments, sameLast⟩ := sameEnds.mp samePath
    exact
      ⟨target, other, resolved, otherResolved, sameHolder, sameName, sameSegments, sameRoot,
        sameLast⟩
  · rintro ⟨target, other, resolved, otherResolved, sameHolder, sameName, samePath, sameRoot,
      sameLast⟩
    rw [access_of_resolve resolved, access_of_resolve otherResolved, sameHolder, sameName, sameRoot,
      sameEnds.mpr ⟨samePath, sameLast⟩]

theorem access_ne_of_membership
    (isTest : first.sigil = .membership) (reads : second.sigil ≠ .membership) :
    first.access model ≠ second.access model := by
  intro same
  obtain ⟨target, resolved⟩ := model.exists_resolve_of_ne_membership reads
  have starts := access_startsWith resolved
  rw [← same, access_of_membership isTest, Reference.startsWith_membershipTest] at starts
  cases starts

theorem access_eq_iff_of_wellFormed
    (wellFormed : first.WellFormed) (otherWellFormed : second.WellFormed) :
    first.access model = second.access model ↔
      (first.sigil = .membership ∧ second.sigil = .membership ∧ first.name = second.name) ∨
        (first.sigil ≠ .membership ∧ second.sigil ≠ .membership ∧
          model.SameCalls first second) := by
  by_cases isTest : first.sigil = .membership
  · by_cases otherIsTest : second.sigil = .membership
    · have noQuote := quote_not_mem_of_isWord wellFormed.name
      have otherNoQuote := quote_not_mem_of_isWord otherWellFormed.name
      have sameTest : first.access model = second.access model ↔ first.name = second.name := by
        rw [access_of_membership isTest, access_of_membership otherIsTest]
        exact ⟨Reference.eq_of_membershipTest_eq noQuote otherNoQuote, congrArg _⟩
      simp [isTest, otherIsTest, sameTest]
    · have different : first.access model ≠ second.access model :=
        access_ne_of_membership isTest otherIsTest
      simp [isTest, otherIsTest, different]
  · by_cases otherIsTest : second.sigil = .membership
    · have different : first.access model ≠ second.access model :=
        (access_ne_of_membership otherIsTest isTest).symm
      simp [isTest, otherIsTest, different]
    · obtain ⟨target, resolved⟩ := model.exists_resolve_of_ne_membership isTest
      obtain ⟨other, otherResolved⟩ := model.exists_resolve_of_ne_membership otherIsTest
      have sameText :=
        access_eq_iff_of_resolve wellFormed otherWellFormed resolved otherResolved
      simp [isTest, otherIsTest, sameText]

theorem name_eq_of_access_eq
    (wellFormed : first.WellFormed) (otherWellFormed : second.WellFormed)
    (same : first.access model = second.access model) :
    first.name = second.name := by
  rcases (access_eq_iff_of_wellFormed wellFormed otherWellFormed).mp same with
    ⟨_, _, sameName⟩ | ⟨_, _, _, _, _, _, _, sameName, _⟩
  · exact sameName
  · exact sameName

theorem path_eq_of_access_eq
    (wellFormed : first.WellFormed) (otherWellFormed : second.WellFormed)
    (reads : first.sigil ≠ .membership) (same : first.access model = second.access model) :
    first.path = second.path := by
  rcases (access_eq_iff_of_wellFormed wellFormed otherWellFormed).mp same with
    ⟨isTest, _⟩ | ⟨_, _, _, _, _, _, _, _, samePath, _⟩
  · exact absurd isTest reads
  · exact samePath

theorem wellFormed_of_mem_split
    {text : String} {mention : Reference}
    (occurs : .reference mention ∈ Fragment.split text) :
    mention.WellFormed :=
  (Fragment.canonical_split text).wellFormed _ occurs

/-- Two references of rule texts have the same text exactly if both test one group member or both are
read in the same way. So references to different names never have the same text, and neither have
reads along different paths. A test reads no fields, and a path behind it is left out. -/
theorem access_eq_iff_sameCalls
    (model : Model) {text other : String} {first second : Reference}
    (occurs : .reference first ∈ Fragment.split text)
    (otherOccurs : .reference second ∈ Fragment.split other) :
    (first.access model = second.access model ↔
        (first.sigil = .membership ∧ second.sigil = .membership ∧ first.name = second.name) ∨
          (first.sigil ≠ .membership ∧ second.sigil ≠ .membership ∧
            model.SameCalls first second)) ∧
      (first.name ≠ second.name → first.access model ≠ second.access model) ∧
      (first.sigil ≠ .membership → first.path ≠ second.path →
        first.access model ≠ second.access model) := by
  have wellFormed := wellFormed_of_mem_split occurs
  have otherWellFormed := wellFormed_of_mem_split otherOccurs
  refine ⟨access_eq_iff_of_wellFormed wellFormed otherWellFormed, ?_, ?_⟩
  · intro different same
    exact different (name_eq_of_access_eq wellFormed otherWellFormed same)
  · intro reads different same
    exact different (path_eq_of_access_eq wellFormed otherWellFormed reads same)

/-- A typed name and a cast of its synonym are read alike, two fields of one record are not. -/
theorem access_eq_iff_sameCalls_rate :
    Reference.access priceModel ⟨.result, "rate", [], none⟩ =
        Reference.access priceModel ⟨.synonym, "rate", [], some "integer"⟩ ∧
      Reference.access priceModel ⟨.result, "rate", ["net", "low"], none⟩ ≠
        Reference.access priceModel ⟨.result, "rate", ["net", "high"], none⟩ := by
  have casts : Fragment.split "#rate@rate::integer" =
      [.reference ⟨.result, "rate", [], none⟩,
        .reference ⟨.synonym, "rate", [], some "integer"⟩] := by decide +kernel
  have fields : Fragment.split "#rate.net.low#rate.net.high" =
      [.reference ⟨.result, "rate", ["net", "low"], none⟩,
        .reference ⟨.result, "rate", ["net", "high"], none⟩] := by decide +kernel
  have plain : .reference ⟨.result, "rate", [], none⟩ ∈ Fragment.split "#rate@rate::integer" := by
    simp [casts]
  have cast : .reference ⟨.synonym, "rate", [], some "integer"⟩ ∈
      Fragment.split "#rate@rate::integer" := by
    simp [casts]
  have low : .reference ⟨.result, "rate", ["net", "low"], none⟩ ∈
      Fragment.split "#rate.net.low#rate.net.high" := by
    simp [fields]
  have high : .reference ⟨.result, "rate", ["net", "high"], none⟩ ∈
      Fragment.split "#rate.net.low#rate.net.high" := by
    simp [fields]
  constructor
  · apply (access_eq_iff_sameCalls priceModel plain cast).1.mpr
    right
    exact ⟨by decide, by decide, _, _, rfl, rfl, rfl, rfl, rfl, by decide, by decide⟩
  · exact (access_eq_iff_sameCalls priceModel low high).2.2 (by decide) (by decide)

end Model

end FeatureRules
