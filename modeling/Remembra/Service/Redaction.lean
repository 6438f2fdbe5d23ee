import Remembra.Lib.Regex

/-! What is taken out of a text before it is stored: the redaction of personal data, which is on or
    off, and the detector of sensitive data with its four policies. A text is taken character by
    character. -/

namespace Remembra.Service
open Regex

/-! ### Personal data -/

inductive RedactionKind where
  | email | ssn | card | phone | secret
  deriving DecidableEq

def RedactionKind.text : RedactionKind → String
  | .email => "EMAIL"
  | .ssn => "SSN"
  | .card => "CARD"
  | .phone => "PHONE"
  | .secret => "SECRET"

/-- Luhn's check of a list of digits, the last digit first: every second one counts double. -/
def luhnSum : Bool → List Char → ℕ
  | _, [] => 0
  | twice, c :: digits =>
    let d := c.toNat - '0'.toNat
    let d := if twice then if d * 2 > 9 then d * 2 - 9 else d * 2 else d
    d + luhnSum (!twice) digits

def luhnOk (digits : List Char) : Bool := luhnSum false digits.reverse % 10 = 0

structure Rule where
  kind : RedactionKind
  pattern : Regex
  /-- A further test on the matched text. -/
  accept : String → Bool := fun _ => true

/-- One of `A-Z`, `a-z`, `0-9` or of the characters listed. -/
def alphanumOr (cs : List Char) (c : Char) : Bool := c.isAlphanum || c ∈ cs

def phoneGap : Regex := char (· ∈ [' ', '.', '-'])

/-- In this order: what is specific first. -/
def rules : List Rule := [
  { kind := .email
    pattern := Regex.all [boundary, plus (char fun c => isWord c || c ∈ ['.', '+', '-']), lit "@",
      plus (char fun c => isWord c || c = '-'),
      plus (Regex.all [lit ".", plus (char fun c => isWord c || c = '-')]), boundary] },
  { kind := .ssn
    pattern := Regex.all [boundary, times digit 3, lit "-", times digit 2, lit "-", times digit 4,
      boundary] },
  { kind := .card
    pattern := Regex.all [boundary, upTo (Regex.all [digit, opt (char (· ∈ [' ', '-']))]) 12 18,
      digit, boundary]
    accept := fun m => luhnOk (m.toList.filter fun c => c ∉ [' ', '-']) },
  { kind := .phone
    pattern := Regex.all [afterSpace,
      opt (Regex.all [lit "+", upTo digit 1 3, opt phoneGap]),
      oneOf [Regex.all [lit "(", upTo digit 2 4, lit ")", opt phoneGap],
        Regex.all [upTo digit 2 4, phoneGap]],
      upTo digit 3 4, phoneGap, upTo digit 3 4, boundary]
    accept := fun m =>
      10 ≤ (m.toList.filter Char.isDigit).length && (m.toList.filter Char.isDigit).length ≤ 15 },
  { kind := .secret
    pattern := oneOf [
      Regex.all [boundary, oneOf (["sk", "pk", "rk", "ghp", "gho", "ghs", "xoxb", "xoxp", "glpat"].map lit),
        char (· ∈ ['-', '_']), atLeast (char (alphanumOr ['_', '-'])) 16, boundary],
      Regex.all [boundary, lit "AKIA", times (char fun c => c.isDigit || c.isUpper) 16, boundary],
      Regex.all [boundary, lit "ghu_", atLeast (char Char.isAlphanum) 20, boundary],
      Regex.all [lit "github_pat_", atLeast (char (alphanumOr ['_'])) 20, boundary]] },
  { kind := .secret
    pattern := Regex.all [boundary, atLeast (char (alphanumOr ['+', '/', '_', '-'])) 40, boundary]
    -- A match of letters alone is a long word.
    accept := fun m =>
      !(m.toList.all fun c => isWord c || c = '-') || m.toList.any Char.isDigit } ]

/-- The text with the placeholder in the place of each match that is accepted. -/
def Rule.apply (rule : Rule) (placeholder text : String) : String :=
  rule.pattern.replaceAll (fun m => if rule.accept m then placeholder else m) text

/-- Some match is accepted: a match is never empty, so taking it out shortens the text. -/
def Rule.finds (rule : Rule) (text : String) : Bool := rule.apply "" text ≠ text

/-- `redact`; of the counts the kinds that were found. -/
def redact (text : String) : String × List RedactionKind :=
  rules.foldl (fun (out, kinds) rule => (rule.apply ("<" ++ rule.kind.text ++ ">") out,
    if rule.finds out then kinds ++ [rule.kind] else kinds)) (text, [])

/-- `!redact(text).changed` -/
def clean (text : String) : Bool := (redact text).2 = []

def redactTags (tags : List String) : List String × List RedactionKind :=
  (tags.map fun t => (redact t).1, tags.flatMap fun t => (redact t).2)

/-- A rule that finds nothing leaves the text. -/
theorem Rule.apply_of_not_finds {rule : Rule} {text : String} (h : rule.finds text = false)
    (placeholder : String) : rule.apply placeholder text = text := by
  have happly (new : String) : rule.apply new text =
      .ofList (rule.pattern.replaceFrom (fun l => if rule.accept (.ofList l) then new.toList else l)
        text.length ⟨[], text.toList⟩) := by
    unfold Rule.apply Regex.replaceAll
    congr 2
    funext l
    dsimp only
    split_ifs
    · rfl
    · exact String.toList_ofList
  have hremoved : rule.apply "" text = text := by simpa [Rule.finds] using h
  rw [happly ""] at hremoved
  rw [happly]
  have hrest := congrArg String.toList hremoved
  rw [String.toList_ofList] at hrest
  rw [Regex.replaceFrom_of_removed rule.pattern (fun l => rule.accept (.ofList l))
    (fun _ => placeholder.toList) _ _ hrest]
  exact String.ofList_toList

/-- One rule of `redact`. -/
def Rule.step (s : String × List RedactionKind) (rule : Rule) : String × List RedactionKind :=
  (rule.apply ("<" ++ rule.kind.text ++ ">") s.1,
    if rule.finds s.1 then s.2 ++ [rule.kind] else s.2)

theorem Rule.prefix_foldl (rs : List Rule) (s : String × List RedactionKind) :
    s.2 <+: (rs.foldl Rule.step s).2 := by
  induction rs generalizing s with
  | nil => exact List.prefix_refl _
  | cons rule rs ih =>
    refine List.IsPrefix.trans ?_ (ih (rule.step s))
    unfold Rule.step
    split_ifs
    · exact List.prefix_append _ _
    · exact List.prefix_refl _

/-- Rules that find nothing, one after another, leave the text. -/
theorem Rule.foldl_of_nil (rs : List Rule) (text : String)
    (h : (rs.foldl Rule.step (text, [])).2 = []) : (rs.foldl Rule.step (text, [])).1 = text := by
  induction rs with
  | nil => rfl
  | cons rule rs ih =>
    have hfinds : rule.finds text = false := by
      by_contra hfinds
      have hkinds := Rule.prefix_foldl rs (rule.step (text, []))
      rw [← List.foldl_cons, h] at hkinds
      simp [Rule.step, hfinds] at hkinds
    have hstep : rule.step (text, []) = (text, []) := by
      simp [Rule.step, hfinds, Rule.apply_of_not_finds hfinds]
    rw [List.foldl_cons, hstep] at h ⊢
    exact ih h

/-- A text in which nothing is found is a fixed point. -/
theorem redact_of_clean {text : String} (h : clean text = true) : (redact text).1 = text :=
  Rule.foldl_of_nil rules text (of_decide_eq_true h)

/-! ### Sensitive data -/

inductive SensitivePolicy where
  | allow | redact | reject | quarantine
  deriving DecidableEq

structure SensitiveResult where
  text : String
  detected : Bool
  categories : List String
  action : SensitivePolicy
  quarantine : Bool

def tokenChar : Char → Bool := alphanumOr ['-', '.', '_', '~', '+', '/']

/-- The category of each pattern. -/
def sensitivePatterns : List (String × Regex) := [
  ("api_key", Regex.all [boundary, oneOf [
    Regex.all [lit "sk-", atLeast (char Char.isAlphanum) 20],
    Regex.all [lit "ghp_", atLeast (char Char.isAlphanum) 20],
    Regex.all [lit "gho_", atLeast (char Char.isAlphanum) 20],
    Regex.all [lit "ghu_", atLeast (char Char.isAlphanum) 20],
    Regex.all [lit "github_pat_", plus (char Char.isAlphanum)]], boundary]),
  ("aws_key", Regex.all [boundary, lit "AKIA", times (char fun c => c.isDigit || c.isUpper) 16,
    boundary]),
  ("token", Regex.all [boundary, opt (Regex.all [lit "Bearer", plus space]),
    upTo (char tokenChar) 20 512, upTo (lit "=") 0 2, boundary]),
  ("private_key", Regex.all [lit "-----BEGIN", plus space,
    opt (oneOf (["RSA", "EC", "DSA", "OPENSSH", "PGP"].map lit)), star space,
    lit "PRIVATE KEY-----"]),
  ("password", Regex.all [boundary, oneOf (["password", "passwd", "pwd"].map litI), star space,
    char (· ∈ [':', '=']), star space, plus (char fun c => !isSpace c)]),
  ("auth_cookie", Regex.all [boundary,
    oneOf ([("session", "id"), ("auth", "token"), ("access", "token"), ("refresh", "token")].map
      fun (a, b) => Regex.all [litI a, opt (char (· ∈ ['_', '-'])), litI b]), star space,
    char (· ∈ [':', '=']), star space, atLeast (char tokenChar) 10]),
  ("financial", Regex.all [boundary,
    oneOf ([("credit", "card"), ("cc", "number"), ("card", "number")].map
      fun (a, b) => Regex.all [litI a, plus space, litI b]), star space,
    char (· ∈ [':', '=']), star space, upTo digit 13 19])]

/-- The capital letters of a category. -/
def placeholder (category : String) : String :=
  "<" ++ .ofList (category.toList.map Char.toUpper) ++ ">"

/-- The categories that the text matches. -/
def sensitiveCategories (text : String) : List String :=
  (sensitivePatterns.filter fun (_, regex) => regex.test text).map Prod.fst

/-- The text with the matches of each pattern it has replaced, one pattern after another. -/
def processed (text : String) : String :=
  (sensitivePatterns.filter fun (_, regex) => regex.test text).foldl
    (fun out (category, regex) => regex.replaceAll (fun _ => placeholder category) out) text

/-- `SensitiveDataDetector.scan`; `pii` says that the redaction of personal data is enabled. -/
def scan (policy : SensitivePolicy) (pii : Bool) (text : String) : SensitiveResult :=
  if text = "" || policy = .allow then ⟨text, false, [], .allow, false⟩
  else
    let categories := sensitiveCategories text
    let out := if policy = .redact || policy = .quarantine then processed text else text
    let detected := categories ≠ []
    { text := if pii && (redact out).2 ≠ [] then (redact out).1 else out
      detected := detected
      categories := categories
      action := if detected then policy else .allow
      quarantine := detected && policy = .quarantine }

end Remembra.Service
