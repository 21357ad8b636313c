import Stache.Proofs.Grammar.Seams
import Stache.Proofs.Grammar.Segments
import Stache.Proofs.Grammar.Spelled
import Stache.Proofs.Token.InTag

/-!
# Paths of one text

A path is put together from its segments, and from a call if it goes on from one.
`WritesPath` says which segments these are.
-/

namespace Stache

/-! ## What the builder makes of segments -/

namespace PathPrefix

variable {p q : PathPrefix} {l l' : List Segment}

theorem add_congr {s t : Segment} (h : s.Like t) (p : PathPrefix) : p.add s = p.add t := by
  rw [add, add, Segment.text, Segment.text, Segment.name, Segment.name, h.operator, h.part,
    h.separator]

theorem foldlM_congr (h : List.Forall₂ Segment.Like l l') (p : PathPrefix) :
    l.foldlM add p = l'.foldlM add p := by
  induction h generalizing p with
  | nil => rfl
  | cons hst _ ih =>
      rw [List.foldlM_cons, List.foldlM_cons, add_congr hst]
      exact congrArg _ (funext ih)

theorem written_of_add {s : Segment} (h : p.add s = .ok q) : q.written = p.written ++ s.text := by
  unfold add at h
  dsimp only at h
  split at h
  · split at h <;> cases h
    rfl
  · cases h
    rfl

/-- The text of a path is that of its segments. -/
theorem written_of_foldlM (h : l.foldlM add p = .ok q) :
    q.written = p.written ++ l.flatMap Segment.text := by
  induction l generalizing p with
  | nil =>
      cases h
      exact (List.append_nil _).symm
  | cons s l ih =>
      rw [List.foldlM_cons] at h
      obtain ⟨p', hadd, h⟩ := exists_of_bind_eq_ok h
      rw [ih h, written_of_add hadd, List.flatMap_cons, List.append_assoc]

end PathPrefix

namespace Builder

variable {b : Builder}

/-- The text in front of the segments of a path. -/
def pathStart (data : Bool) : Option SubExpr → Text
  | some sub => sub.written ++ ['.']
  | none => if data then ['@'] else []

/-- What a path starts from, and the names behind it. -/
def pathHead : Option SubExpr → List Text → Option PathHead × List Text
  | some sub, names => (some (.sub sub), names)
  | none, [] => (none, [])
  | none, name :: names => (some (.segment name), names)

/-- A path, from what its segments come to. -/
theorem exists_of_path {data : Bool} {head : Option SubExpr} {segments : List Segment} {x : Extent}
    {p : Path} (h : b.path data head segments x = .ok p) :
    ∃ q, segments.foldlM PathPrefix.add ⟨pathStart data head, [], 0⟩ = .ok q ∧
      p = ⟨data, ['t', 'h', 'i', 's', '.'].isPrefixOf q.written, q.depth,
        (pathHead head q.names).1, (pathHead head q.names).2, q.written, b.locate x⟩ := by
  rw [path.eq_def] at h
  cases head <;> cases data
  all_goals
    dsimp only at h
    split at h
    · cases h
    · next q hq =>
        cases h
        exact ⟨q, hq, rfl⟩

theorem written_of_path {data : Bool} {head : Option SubExpr} {segments : List Segment} {x : Extent}
    {p : Path} (h : b.path data head segments x = .ok p) :
    p.written = pathStart data head ++ segments.flatMap Segment.text := by
  obtain ⟨q, hq, rfl⟩ := exists_of_path h
  exact PathPrefix.written_of_foldlM hq

end Builder

/-! ## Paths that are read -/

namespace Grammar

variable {g : Grammar} {square flag : Bool} {offset : Nat} {cs v : Text}
  {ls before after : List Lexeme} {segments : List Segment} {p : Path}

variable (g) in
/-- The tokens write a path of the given segments, which may go on from a call. -/
inductive WritesPath : List Lexeme → List Segment → Path → Prop where
  | path {ls : List Lexeme} {segments : List Segment} {p : Path} (h : WritesSegments ls segments)
      (hpath : g.builder.path false none segments (g.extentOf ls) = .ok p) :
      WritesPath ls segments p
  | data {s : Span} {ls : List Lexeme} {segments : List Segment} {p : Path}
      (h : WritesSegments ls segments)
      (hpath : g.builder.path true none segments (g.extentOf (⟨.data, s⟩ :: ls)) = .ok p) :
      WritesPath (⟨.data, s⟩ :: ls) segments p
  | subPath {s s' s'' : Span} {kind : Separator} {ls ls' : List Lexeme} {called : Call}
      {segments : List Segment} {p : Path} (h : g.WritesCall ls called)
      (hmore : WritesSegments ls' segments)
      (hpath : g.builder.path false (some (g.subOf called (parens s ls s'))) segments
        (g.extentOf (parens s ls s' ++ ⟨.separator kind, s''⟩ :: ls')) = .ok p) :
      WritesPath (parens s ls s' ++ ⟨.separator kind, s''⟩ :: ls') segments p

/-- An expression that is a path has segments. -/
theorem exists_writesPath (hg : g.Literal) (h : g.WritesExpr ls (.path p)) :
    ∃ segments, g.WritesPath ls segments p := by
  generalize he : Expr.path p = e at h
  cases h with
  | path h hpath =>
      cases he
      exact ⟨_, .path h hpath⟩
  | data h hpath =>
      cases he
      exact ⟨_, .data h hpath⟩
  | subPath h hmore hpath =>
      cases he
      exact ⟨_, .subPath h hmore hpath⟩
  | hash h _ =>
      rw [hashLiteral_of_literal hg] at he
      cases he
  | array h =>
      rw [array_of_literal hg] at he
      cases he
  | sub | string | number | boolean | undefined | null => cases he

/-! ## The segments show in the text -/

theorem behind_of_writesTail (h : WritesTail ls segments) (hin : InTag square v flag offset cs ls)
    (hclear : ∀ s ∈ segments, s.Clear) : ∀ s ∈ segments, s.Behind := by
  induction h generalizing flag offset cs with
  | nil => nofun
  | @cons kind name s s' ls more _ ih =>
      obtain ⟨hclear, hmore⟩ := List.forall_mem_cons.mp hclear
      have hnamed : name.IsBare ∨ name.IsBracketed :=
        hin.named ⟨.ident name, s'⟩ (List.mem_cons_of_mem _ List.mem_cons_self)
      have hshown := shown_of_clear hnamed hclear
      refine List.forall_mem_cons.mpr ⟨⟨hshown, kind, rfl, ?_⟩, ?_⟩
      · rintro rfl
        have hdotted : name.head? ≠ some '.' := hin.dotted
        cases hshown with
        | name h _ => exact h
        | dots h hbare =>
            have hname : name = (Segment.ofIdent name (some .dot)).part := hbare
            rcases h with h | h <;> exact absurd (by rw [hname, h]; rfl) hdotted
      · obtain ⟨_, _, _, -, -, hin⟩ :=
          (show InTag square v flag offset cs
            ([⟨.separator kind, s⟩, ⟨.ident name, s'⟩] ++ ls) from hin).append
        exact ih hin hmore

theorem row_of_writesSegments (h : WritesSegments ls segments)
    (hin : InTag square v flag offset cs ls) (hclear : ∀ s ∈ segments, s.Clear) :
    Segment.Row segments := by
  cases h with
  | @mk name s ls more h =>
      obtain ⟨hclear, hmore⟩ := List.forall_mem_cons.mp hclear
      obtain ⟨_, _, _, -, -, htail⟩ :=
        (show InTag square v flag offset cs ([⟨.ident name, s⟩] ++ ls) from hin).append
      exact ⟨shown_of_clear (hin.named ⟨.ident name, s⟩ List.mem_cons_self) hclear, rfl,
        behind_of_writesTail h htail hmore⟩

variable (g square) in
/-- The call in parentheses stands in the template. -/
inductive Stands : SubExpr → Prop where
  | mk {s s' : Span} {ls before after : List Lexeme} {called : Call} (h : g.WritesCall ls called)
      (hls : (tokenize square g.text).lexemes = before ++ (parens s ls s' ++ after)) :
      Stands (g.subOf called (parens s ls s'))

/-- What a path that is read has been built from.  Its segments show in its text if they are
clear. -/
theorem exists_path_of_writesPath
    (hls : (tokenize square g.text).lexemes = before ++ (ls ++ after))
    (h : g.WritesPath ls segments p) :
    ∃ data head x, g.builder.path data head segments x = .ok p ∧
      (data = true → head = none) ∧ (∀ sub ∈ head, g.Stands square sub) ∧
      ((∀ s ∈ segments, s.Clear) → Segment.Row segments) := by
  cases h with
  | path h hpath =>
      obtain ⟨_, _, _, _, -, hin, -⟩ :=
        exists_inTag (ne_nil_of_writesSegments h) (inner_of_writesSegments h) hls
      refine ⟨false, none, _, hpath, fun _ => rfl, ?_, row_of_writesSegments h hin⟩
      rintro _ ⟨⟩
  | @data s ls _ _ h hpath =>
      rw [← List.singleton_append, List.append_assoc, ← List.append_assoc] at hls
      obtain ⟨_, _, _, _, -, hin, -⟩ :=
        exists_inTag (ne_nil_of_writesSegments h) (inner_of_writesSegments h) hls
      refine ⟨true, none, _, hpath, fun _ => rfl, ?_, row_of_writesSegments h hin⟩
      rintro _ ⟨⟩
  | @subPath s s' s'' kind ls ls' called _ _ h hmore hpath =>
      have hcall := hls
      rw [List.append_assoc] at hcall
      have hsegments : (tokenize square g.text).lexemes =
          (before ++ (parens s ls s' ++ [⟨.separator kind, s''⟩])) ++ (ls' ++ after) := by
        rw [hls]
        simp only [List.append_assoc, List.cons_append, List.nil_append]
      obtain ⟨_, _, _, _, -, hin, -⟩ :=
        exists_inTag (ne_nil_of_writesSegments hmore) (inner_of_writesSegments hmore) hsegments
      refine ⟨false, some _, _, hpath, ?_, ?_, row_of_writesSegments hmore hin⟩
      · rintro ⟨⟩
      · rintro _ ⟨⟩
        exact .mk h hcall

end Grammar
end Stache
