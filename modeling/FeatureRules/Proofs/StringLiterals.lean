import FeatureRules.Json.Lexeme
import FeatureRules.Json.Text

/-!
# String literals

What a string literal denotes. The escaped literal of a text denotes the text, whatever the text
holds. A text that is set between quotes as it stands makes a literal of itself only if there is
nothing to escape in it.
-/

namespace FeatureRules

namespace LiteralUnit

/-! ## Reading what stands between quotes -/

/-- The units between the quotes of a literal. A quote has to be escaped there, and a backslash has to
start an escape. All else may stand for itself, line breaks among it. -/
def units? : List Char → Option (List LiteralUnit)
  | [] => some []
  | '"' :: _ => none
  | ['\\'] => none
  | '\\' :: 'u' :: a :: b :: c :: d :: rest =>
      (code? a b c d).bind fun code => (units? rest).map (escaped code :: ·)
  | '\\' :: letter :: rest =>
      (shortEscape? letter).bind fun c => (units? rest).map (plain c :: ·)
  | c :: rest => (units? rest).map (plain c :: ·)

theorem units?_cons_of_unescaped
    {c : Char} (noQuote : c ≠ '"') (noBackslash : c ≠ '\\') (rest : List Char) :
    units? (c :: rest) = (units? rest).map (plain c :: ·) := by
  rw [units?] <;> simp_all

theorem units?_shortEscape
    {letter c : Char} (known : shortEscape? letter = some c) (rest : List Char) :
    units? ('\\' :: letter :: rest) = (units? rest).map (plain c :: ·) := by
  have noCode : letter ≠ 'u' := by
    rintro rfl
    simp [shortEscape?] at known
  rw [units?, known, Option.bind_some]
  simp [noCode]

theorem units?_eq_none_of_quote
    {body : List Char} (quote : '"' ∈ body) (noBackslash : '\\' ∉ body) : units? body = none := by
  induction body with
  | nil => cases quote
  | cons c rest inductionHypothesis =>
      rw [List.mem_cons, not_or] at noBackslash
      by_cases first : c = '"'
      · rw [first, units?]
      · have later := List.mem_of_ne_of_mem (Ne.symm first) quote
        rw [units?_cons_of_unescaped first (Ne.symm noBackslash.1),
          inductionHypothesis later noBackslash.2, Option.map_none]

/-- Each unit takes up a character, and an escape takes up more than one. -/
theorem length_of_units? {body : List Char} {units : List LiteralUnit}
    (found : units? body = some units) :
    units.length ≤ body.length ∧ ('\\' ∈ body → units.length < body.length) := by
  fun_induction units? body generalizing units with
  | case1 => simp_all
  | case2 => cases found
  | case3 => cases found
  | case4 a b c d rest inductionHypothesis =>
      simp only [Option.bind_eq_some_iff, Option.map_eq_some_iff] at found
      obtain ⟨code, _, later, read, rfl⟩ := found
      have shorter := (inductionHypothesis read).1
      simp only [List.length_cons]
      omega
  | case5 letter rest _ inductionHypothesis =>
      simp only [Option.bind_eq_some_iff, Option.map_eq_some_iff] at found
      obtain ⟨c, _, later, read, rfl⟩ := found
      have shorter := (inductionHypothesis read).1
      simp only [List.length_cons]
      omega
  | case6 c rest _ noEnd _ noEscape inductionHypothesis =>
      obtain ⟨later, read, rfl⟩ := Option.map_eq_some_iff.mp found
      obtain ⟨shorter, strictly⟩ := inductionHypothesis read
      simp only [List.length_cons, List.mem_cons]
      refine ⟨by omega, ?_⟩
      rintro (backslash | escapes)
      · cases rest with
        | nil => exact absurd rfl (noEnd backslash.symm)
        | cons letter after => exact absurd rfl (noEscape letter after backslash.symm)
      · exact Nat.succ_lt_succ (strictly escapes)

/-! ## Denoted texts -/

theorem characters?_escaped
    {code : Nat} (noHigh : isHigh code = false) (noLow : isLow code = false)
    (done : List Char) (rest : List LiteralUnit) :
    characters? done (escaped code :: rest) = characters? (Char.ofNat code :: done) rest := by
  cases rest with
  | nil => simp [characters?, noHigh, noLow]
  | cons next later =>
      cases next with
      | plain c => simp [characters?, noHigh, noLow]
      | escaped low => simp [characters?, noHigh, noLow]

theorem length_le_of_characters? {done characters : List Char} {units : List LiteralUnit}
    (denoted : characters? done units = some characters) :
    characters.length ≤ done.length + units.length := by
  fun_induction characters? done units with
  | case1 => simp_all
  | case2 done c rest inductionHypothesis =>
      have shorter := inductionHypothesis denoted
      simp only [List.length_cons] at shorter ⊢
      omega
  | case3 done high low rest pair inductionHypothesis =>
      have shorter := inductionHypothesis denoted
      simp only [List.length_cons] at shorter ⊢
      omega
  | case4 => cases denoted
  | case5 done high low rest _ _ inductionHypothesis =>
      have shorter := inductionHypothesis denoted
      simp only [List.length_cons] at shorter ⊢
      omega
  | case6 => cases denoted
  | case7 done code rest _ _ inductionHypothesis =>
      have shorter := inductionHypothesis denoted
      simp only [List.length_cons] at shorter ⊢
      omega

/-- A written form that is read as a character, whatever stands around it. -/
def ReadsAs (written : List Char) (c : Char) : Prop :=
  ∀ done rest,
    (units? (written ++ rest)).bind (characters? done) =
      (units? rest).bind (characters? (c :: done))

theorem readsAs_unescaped {c : Char} (noQuote : c ≠ '"') (noBackslash : c ≠ '\\') :
    ReadsAs [c] c := by
  intro done rest
  rw [List.singleton_append, units?_cons_of_unescaped noQuote noBackslash, Option.bind_map]
  rfl

theorem readsAs_shortEscape {letter c : Char} (known : shortEscape? letter = some c) :
    ReadsAs ['\\', letter] c := by
  intro done rest
  rw [List.cons_append, List.singleton_append, units?_shortEscape known, Option.bind_map]
  rfl

theorem readsAs_code
    {a b c d : Char} {code : Nat} (known : code? a b c d = some code)
    (noHigh : isHigh code = false) (noLow : isLow code = false) :
    ReadsAs ['\\', 'u', a, b, c, d] (Char.ofNat code) := by
  intro done rest
  simp only [List.cons_append, List.nil_append, units?, known, Option.bind_some, Option.bind_map]
  congr 1
  funext later
  exact characters?_escaped noHigh noLow done later

theorem read_flatMap
    {write : Char → List Char} {text : List Char} (reads : ∀ c ∈ text, ReadsAs (write c) c)
    (done : List Char) :
    (units? (text.flatMap write)).bind (characters? done) = some (text.reverse ++ done) := by
  induction text generalizing done with
  | nil => rfl
  | cons c rest inductionHypothesis =>
      have later := fun next member => reads next (List.mem_cons_of_mem c member)
      rw [List.flatMap_cons, reads c List.mem_cons_self, inductionHypothesis later,
        List.reverse_cons, List.append_assoc, List.singleton_append]

/-- A text stands for itself exactly if nothing in it would have to be escaped. -/
theorem read_eq_self_iff {body : List Char} :
    (units? body).bind (characters? []) = some body.reverse ↔ '"' ∉ body ∧ '\\' ∉ body := by
  constructor
  · intro read
    obtain ⟨units, found, denoted⟩ := Option.bind_eq_some_iff.mp read
    -- With an escape there are fewer characters than the body has.
    have noBackslash : '\\' ∉ body := by
      intro escapes
      have fewer := (length_of_units? found).2 escapes
      have covered := length_le_of_characters? denoted
      simp only [List.length_reverse, List.length_nil] at covered
      omega
    refine ⟨?_, noBackslash⟩
    intro quote
    rw [units?_eq_none_of_quote quote noBackslash] at found
    cases found
  · rintro ⟨noQuote, noBackslash⟩
    have reads : ∀ c ∈ body, ReadsAs [c] c := by
      intro c member
      exact
        readsAs_unescaped (ne_of_mem_of_not_mem member noQuote)
          (ne_of_mem_of_not_mem member noBackslash)
    simpa using read_flatMap reads []

end LiteralUnit

namespace Json

open LiteralUnit

/-! ## Literals -/

theorem hexValue?_hexDigit : ∀ n < 16, hexValue? (hexDigit n) = some n := by
  decide

theorem code?_control {n : Nat} (control : n < 32) :
    code? '0' '0' (hexDigit (n / 16)) (hexDigit (n % 16)) = some n := by
  have zero : hexValue? '0' = some 0 := by decide
  rw [code?, zero, hexValue?_hexDigit _ (by omega), hexValue?_hexDigit _ (by omega)]
  simp only [Option.bind_eq_bind, Option.bind_some, Option.pure_def]
  congr 1
  omega

/-- A character is escaped by a letter or by its code, or stands for itself. -/
theorem escape_cases (c : Char) :
    (∃ letter, shortEscape? letter = some c ∧ escape c = ['\\', letter]) ∨
      (c.toNat < 32 ∧
        escape c = ['\\', 'u', '0', '0', hexDigit (c.toNat / 16), hexDigit (c.toNat % 16)]) ∨
      (c ≠ '"' ∧ c ≠ '\\' ∧ 32 ≤ c.toNat ∧ escape c = [c]) := by
  fun_cases escape c with
  | case1 quote => exact .inl ⟨'"', congrArg some quote.symm, rfl⟩
  | case2 _ backslash => exact .inl ⟨'\\', congrArg some backslash.symm, rfl⟩
  | case3 _ _ newline => exact .inl ⟨'n', congrArg some newline.symm, rfl⟩
  | case4 _ _ _ carriage => exact .inl ⟨'r', congrArg some carriage.symm, rfl⟩
  | case5 _ _ _ _ tab => exact .inl ⟨'t', congrArg some tab.symm, rfl⟩
  | case6 _ _ _ _ _ code =>
      have backspace : Char.ofNat 8 = c := by rw [← code, c.ofNat_toNat]
      exact .inl ⟨'b', congrArg some backspace, rfl⟩
  | case7 _ _ _ _ _ _ code =>
      have formFeed : Char.ofNat 12 = c := by rw [← code, c.ofNat_toNat]
      exact .inl ⟨'f', congrArg some formFeed, rfl⟩
  | case8 _ _ _ _ _ _ _ control => exact .inr (.inl ⟨control, rfl⟩)
  | case9 quote backslash _ _ _ _ _ control =>
      exact .inr (.inr ⟨quote, backslash, Nat.le_of_not_lt control, rfl⟩)

theorem readsAs_escape (c : Char) : ReadsAs (escape c) c := by
  rcases escape_cases c with ⟨letter, known, written⟩ | ⟨control, written⟩ |
    ⟨noQuote, noBackslash, _, written⟩
  · rw [written]
    exact readsAs_shortEscape known
  · have noHigh : isHigh c.toNat = false := by
      simp only [isHigh, Bool.and_eq_false_iff, decide_eq_false_iff_not]
      omega
    have noLow : isLow c.toNat = false := by
      simp only [isLow, Bool.and_eq_false_iff, decide_eq_false_iff_not]
      omega
    have reads := readsAs_code (code?_control control) noHigh noLow
    rwa [c.ofNat_toNat, ← written] at reads
  · rw [written]
    exact readsAs_unescaped noQuote noBackslash

/-- The text that a literal denotes. A literal starts with a quote and ends with another, and between
them no quote stands unescaped. -/
def unquote? (literal : String) : Option String :=
  if literal.toList.head? = some '"' ∧ literal.toList.tail.getLast? = some '"' then
    (units? literal.toList.tail.dropLast).bind text?
  else none

theorem unquote?_enclosed (body : String) :
    unquote? ("\"" ++ body ++ "\"") =
      ((units? body.toList).bind (characters? [])).map fun reversed =>
        String.ofList reversed.reverse := by
  have written : ("\"" ++ body ++ "\"").toList = '"' :: (body.toList ++ ['"']) := by simp
  rw [unquote?, written, if_pos (by simp), List.tail_cons, List.dropLast_concat, Option.map_bind]
  rfl

theorem unquote?_quote (text : String) : unquote? (quote text) = some text := by
  rw [quote, unquote?_enclosed, String.toList_ofList,
    read_flatMap fun c _ => readsAs_escape c]
  simp

/-- Setting a text between quotes makes a literal of it exactly if nothing in it would have to be
escaped. -/
theorem unquote?_enclosed_eq_self_iff {text : String} :
    unquote? ("\"" ++ text ++ "\"") = some text ↔ '"' ∉ text.toList ∧ '\\' ∉ text.toList := by
  rw [unquote?_enclosed, ← read_eq_self_iff, Option.map_eq_some_iff]
  constructor
  · rintro ⟨reversed, read, same⟩
    rw [read, ← same, String.toList_ofList, List.reverse_reverse]
  · intro read
    exact ⟨_, read, by simp⟩

end Json

end FeatureRules
