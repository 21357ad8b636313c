import Mathlib
import Stache.Proofs.Grammar.Nodes
import Stache.Proofs.Grammar.Relocated

/-!
# The name of the source

The name that a caller gives to a source is put into every place and is read nowhere.  Two
runs on one text under different names relocate to each other, so they agree once the name is
erased.  A run relocates to itself by the function that puts its name into a place, so each
place that it reports carries that name.

Functions of the caller that make expressions of lists or of named arguments may do anything
with the places they are handed.  They are left out.
-/

namespace Stache

/-- The same place in a source of a given name. -/
def Location.inSource (name : Option String) (l : Location) : Location := { l with source := name }

/-- The options for a source of a given name. -/
def Options.named (name : Option String) (o : Options) : Options := { o with sourceName := name }

/-- The outcome with a given name in every place. -/
def inSource (name : Option String) (outcome : Except ParseFailure Program) :
    Except ParseFailure Program :=
  (outcome.map (Program.relocated (.inSource name))).mapError
    (ParseFailure.relocated (.inSource name))

/-- Every place of every node, or of every label, carries exactly the name. -/
def Carries (name : Option String) : Except ParseFailure Program → Prop
  | .ok p => ∀ n : Node, n.Within (.program p) → ∀ loc, n.loc? = some loc → loc.source = name
  | .error e => ∀ d ∈ e.diagnostics, ∀ l ∈ d.labels, l.loc.source = name

variable {o : Options}

/-- Under another name the same nodes are made, in a source of that name. -/
theorem relocates_named (ho : o.Literal) (name name' : Option String) (text : Text) :
    ((o.named name').grammar text).Relocates (.inSource name) True
      ((o.named name).grammar text) := by
  have hliteral (name : Option String) : ((o.named name).grammar text).Literal := ho
  refine ⟨rfl, fun _ => rfl, fun _ _ => rfl, fun hash x => ?_, fun _ items x => ?_⟩
  · rw [Grammar.hashLiteral_of_literal (hliteral name),
      Grammar.hashLiteral_of_literal (hliteral name')]
    cases hash
    rfl
  · rw [Grammar.array_of_literal (hliteral name), Grammar.array_of_literal (hliteral name')]
    rfl

theorem parseRaw_named (ho : o.Literal) (name name' : Option String) (text : Text) :
    parseRaw (o.named name) text = inSource name (parseRaw (o.named name') text) :=
  parseRaw_relocated (relocates_named ho name name' text) rfl fun _ _ _ => trivial

theorem parse_named (ho : o.Literal) (name name' : Option String) (text : Text) :
    parse (o.named name) text = inSource name (parse (o.named name') text) :=
  parse_relocated (relocates_named ho name name' text) rfl (fun _ _ _ => trivial) rfl

theorem carries_inSource (name : Option String) (outcome : Except ParseFailure Program) :
    Carries name (inSource name outcome) := by
  cases outcome with
  | ok p =>
      intro n hn loc hloc
      have hn : n.Within ((Node.program p).relocated (.inSource name)) := hn
      obtain ⟨m, -, rfl⟩ := hn.exists_relocated
      rw [Node.loc?_relocated, Option.map_eq_some_iff] at hloc
      obtain ⟨place, -, rfl⟩ := hloc
      rfl
  | error e =>
      intro d hd l hl
      obtain ⟨d', -, rfl⟩ := List.mem_map.mp hd
      obtain ⟨l', -, rfl⟩ := List.mem_map.mp hl
      rfl

/-- The name of the source is in every place, and it makes no other difference: two outcomes
under different names are the same once the name is erased, and each carries its own. -/
theorem names_only_places (ho : o.Literal) (name name' : Option String) (text : Text) :
    (inSource none (parse (o.named name) text) = inSource none (parse (o.named name') text) ∧
      Carries name (parse (o.named name) text)) ∧
    inSource none (parseRaw (o.named name) text) = inSource none (parseRaw (o.named name') text) ∧
      Carries name (parseRaw (o.named name) text) := by
  refine ⟨⟨?_, ?_⟩, ?_, ?_⟩
  · rw [← parse_named ho none name, ← parse_named ho none name']
  · rw [parse_named ho name name]
    exact carries_inSource name _
  · rw [← parseRaw_named ho none name, ← parseRaw_named ho none name']
  · rw [parseRaw_named ho name name]
    exact carries_inSource name _

/-- `{{#a b=[c]}}x{{/a}}` -/
def listedBlock : Text := "\x7b\x7b#a b=[c]\x7d\x7dx\x7b\x7b/a\x7d\x7d".toList

/-- The trees of a block with and without a name of the source differ in that name only. -/
theorem names_only_places_listedBlock : Options.Literal { brackets := .list } ∧ ∃ p q : Program,
    parse (({ brackets := .list } : Options).named (some "page")) listedBlock = .ok p ∧
    parse (({ brackets := .list } : Options).named none) listedBlock = .ok q ∧
    p ≠ q ∧ p.relocated (.inSource none) = q.relocated (.inSource none) ∧
    ∀ n : Node, n.Within (.program p) → ∀ loc, n.loc? = some loc → loc.source = some "page" := by
  have ho : Options.Literal { brackets := .list } := ⟨nofun, nofun⟩
  obtain ⟨p, hp, hplace⟩ : ∃ p,
      parse (({ brackets := .list } : Options).named (some "page")) listedBlock = .ok p ∧
        p.loc.bind Location.source = some "page" := ⟨_, by cbv, by cbv⟩
  obtain ⟨q, hq, hplace'⟩ : ∃ q,
      parse (({ brackets := .list } : Options).named none) listedBlock = .ok q ∧
        q.loc.bind Location.source = none := ⟨_, by cbv, by cbv⟩
  obtain ⟨⟨hsame, hcarries⟩, -⟩ := names_only_places ho (some "page") none listedBlock
  rw [hp] at hcarries
  rw [hp, hq] at hsame
  refine ⟨ho, p, q, hp, hq, ?_, Except.ok.inj hsame, hcarries⟩
  rintro rfl
  rw [hplace'] at hplace
  cases hplace

end Stache
