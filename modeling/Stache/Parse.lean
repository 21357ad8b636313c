import Stache.Grammar.Statement
import Stache.Layout.Normalize
import Stache.Token.Scan

/-!
# Parsing templates

`parseRaw` gives the tree of a template as it is written, and `parse` the tree
with its whitespace normalized.

A fault of the scanner hides nothing that comes before it.  The tokens up to the
last finished tag are parsed all the same, and what is wrong with them is
reported in place of the fault, unless it is only that they stop.
-/

namespace Stache

/-- The grammar for a text under given options. -/
def Options.grammar (o : Options) (text : Text) : Grammar := ⟨.ofOptions o, text⟩

/-- The report on a text that cannot be cut into tokens. -/
def lexicalReport (g : Grammar) (lexing : Lexing) (fault : Fault) : Diagnostic :=
  match g.parse lexing.finished with
  | .error d =>
      if d.code = some .incompleteInput then fault.diagnostic g.text g.builder.source else d
  | .ok _ => fault.diagnostic g.text g.builder.source

/-- The fault is reported, unless the grammar refuses the tokens in front of it for something
else than that they end. -/
theorem lexicalReport_cases (g : Grammar) (lexing : Lexing) (fault : Fault) :
    (lexicalReport g lexing fault = fault.diagnostic g.text g.builder.source ∧
      ∀ d, g.parse lexing.finished = .error d → d.code = some .incompleteInput) ∨
    (g.parse lexing.finished = .error (lexicalReport g lexing fault) ∧
      (lexicalReport g lexing fault).code ≠ some .incompleteInput) := by
  rw [lexicalReport]
  cases hparse : g.parse lexing.finished with
  | ok p => exact .inl ⟨rfl, nofun⟩
  | error d =>
      by_cases hcode : d.code = some .incompleteInput
      · refine .inl ⟨if_pos hcode, ?_⟩
        rintro _ ⟨⟩
        exact hcode
      · dsimp only
        rw [if_neg hcode]
        exact .inr ⟨rfl, hcode⟩

/-- The tree of a template as it is written. -/
def parseRaw (options : Options) (text : Text) : Except ParseFailure Program :=
  let g := options.grammar text
  let lexing := tokenize options.brackets.isList text
  match lexing.fault with
  | some fault => .error (.one (lexicalReport g lexing fault))
  | none =>
      match g.parse lexing.lexemes with
      | .ok p => .ok p
      | .error d => .error (.one d)

/-- The tree of a template with its whitespace normalized. -/
def parse (options : Options) (text : Text) : Except ParseFailure Program :=
  (parseRaw options text).map (normalize options)

/-! ## Outcomes -/

variable {o : Options} {text : Text} {failure : ParseFailure}

theorem parseRaw_eq_ok_iff {p : Program} :
    parseRaw o text = .ok p ↔ (tokenize o.brackets.isList text).fault = none ∧
      (o.grammar text).parse (tokenize o.brackets.isList text).lexemes = .ok p := by
  rw [parseRaw]
  cases (tokenize o.brackets.isList text).fault with
  | some fault => exact iff_of_false nofun nofun
  | none =>
      cases (o.grammar text).parse (tokenize o.brackets.isList text).lexemes with
      | ok q => exact ⟨fun h => ⟨rfl, congrArg _ (Except.ok.inj h)⟩,
          fun h => congrArg _ (Except.ok.inj h.2)⟩
      | error d => exact iff_of_false nofun nofun

/-- A template is not accepted for a fault of the scanner, or for what the grammar refuses. -/
theorem exists_of_parseRaw_eq_error (h : parseRaw o text = .error failure) :
    ∃ d, failure = .one d ∧
      ((∃ fault, (tokenize o.brackets.isList text).fault = some fault ∧
        d = lexicalReport (o.grammar text) (tokenize o.brackets.isList text) fault) ∨
      (tokenize o.brackets.isList text).fault = none ∧
        (o.grammar text).parse (tokenize o.brackets.isList text).lexemes = .error d) := by
  rw [parseRaw] at h
  split at h
  · next fault hfault =>
      cases h
      exact ⟨_, rfl, .inl ⟨fault, hfault, rfl⟩⟩
  · next hfault =>
      split at h
      · cases h
      · next d hparse =>
          cases h
          exact ⟨d, rfl, .inr ⟨hfault, hparse⟩⟩

/-- Normalizing adds no failure. -/
theorem parse_eq_error_iff : parse o text = .error failure ↔ parseRaw o text = .error failure := by
  rw [parse]
  cases parseRaw o text with
  | ok p => exact iff_of_false nofun nofun
  | error f =>
      exact ⟨fun h => congrArg _ (Except.error.inj h), fun h => congrArg _ (Except.error.inj h)⟩

/-- A normalized tree comes from the tree as it is written. -/
theorem exists_parseRaw_of_parse {p : Program} (h : parse o text = .ok p) :
    ∃ q, parseRaw o text = .ok q ∧ p = normalize o q := by
  rw [parse] at h
  cases hraw : parseRaw o text with
  | ok q =>
      rw [hraw] at h
      exact ⟨q, rfl, (Except.ok.inj h).symm⟩
  | error f =>
      rw [hraw] at h
      cases h

end Stache
