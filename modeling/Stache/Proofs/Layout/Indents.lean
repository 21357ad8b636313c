import Mathlib
import Stache.Proofs.Grammar.Bodies
import Stache.Proofs.Layout.Stops

/-!
# Indents of partials

A partial that stands alone on its line takes the padding before it as its
indent.  The pass reads this padding off the text as it was written, but it
removes it from the text as it is by then, and the tag before that text may have
trimmed its start already.

The two agree (`Stop.restores`).  A tag stands alone only where a line ends
before it.  So the text before it has a line break in its end, or it is the
first of the template and no tag has trimmed it.  In either case the trims of
its start that leave any padding at all leave all of it.
-/

namespace Stache

namespace Text

/-! ## Padding behind a trimmed start -/

/-- The padding reaches back to the last character that is not blank. -/
theorem padding_append_cons (s t : Text) {c : Char} (hc : isBlank c = false) :
    padding (s ++ c :: t) = padding t := by
  have hrest : (c :: s.reverse).takeWhile isBlank = [] :=
    List.takeWhile_cons_of_neg (Bool.eq_false_iff.mp hc)
  rw [padding, padding, trailing, trailing, List.reverse_append, List.reverse_cons,
    List.append_assoc, List.singleton_append, List.takeWhile_append, hrest, List.append_nil]
  split
  · next h => rw [(List.takeWhile_prefix isBlank).eq_of_length h]
  · rfl

/-- A start that ends before such a character has no share in the padding. -/
theorem padding_dropWhile {p : Char → Bool} (hp : ∀ c, isBlank c = true → p c = true) {t : Text}
    (h : t.dropWhile p ≠ []) : padding (t.dropWhile p) = padding t := by
  obtain ⟨c, u, hu⟩ := List.exists_cons_of_ne_nil h
  have hc : isBlank c = false := by
    refine Bool.eq_false_iff.mpr fun hblank => ?_
    have hhead := List.head?_dropWhile_not p t
    rw [hu] at hhead
    exact Bool.false_ne_true (hhead.symm.trans (hp c hblank))
  have ht : t = t.takeWhile p ++ c :: u := by
    rw [← hu, List.takeWhile_append_dropWhile]
  rw [hu, ht, padding_append_cons _ _ hc]
  exact padding_append_cons [] u hc

theorem padding_dropIf {d : Char} (hd : isBlank d = false) (t : Text) :
    padding (dropIf d t) = padding t := by
  cases t with
  | nil => rfl
  | cons c t =>
      rw [dropIf]
      split
      · next h =>
          subst h
          exact (padding_append_cons [] t hd).symm
      · rfl

/-- A trim of all white space takes all of the padding or nothing of it. -/
theorem padding_trimStart {t : Text} (h : padding (trimStart t) ≠ []) :
    padding (trimStart t) = padding t :=
  padding_dropWhile (fun _ => isSpace_of_isBlank) fun hnil =>
    h (by rw [trimStart, hnil]; rfl)

/-- A line trim leaves the padding behind a line break alone. -/
theorem padding_trimLine {t : Text} (h : '\n' ∈ t) : padding (trimLine t) = padding t := by
  have hne : t.dropWhile isBlank ≠ [] := fun hnil =>
    Bool.false_ne_true (List.dropWhile_eq_nil_iff.mp hnil '\n' h)
  rw [trimLine_eq, padding_dropIf (by decide), padding_dropIf (by decide),
    padding_dropWhile (fun _ => id) hne]

theorem mem_of_endsLine {t : Text} (h : t.endsLine = true) : '\n' ∈ t := by
  have hmem : '\n' ∈ trailing isSpace t := List.contains_iff_mem.mp h
  rw [← trimTrailing_append_trailing isSpace t]
  exact List.mem_append_right _ hmem

/-- What a trim of the padding takes is the padding. -/
theorem padding_ne_nil_of_length {t : Text} (h : t.trimPadding.length ≠ t.length) :
    padding t ≠ [] := by
  intro hnil
  refine h (congrArg List.length ?_)
  conv_rhs => rw [← trimPadding_append_padding t, hnil, List.append_nil]

end Text

namespace Layout

/-! ## The text before a tag -/

/-- A line trim that is made, or left out because something went at the start
before, leaves the padding alone. -/
theorem padding_ite_trimLine (b : Bool) {c : Content}
    (h : c.rightStripped = true ∨ '\n' ∈ c.value) :
    (if b then c.trimLine else c).value.padding = c.value.padding := by
  split
  · rw [Content.trimLine]
    split
    · rfl
    · next hr => exact Text.padding_trimLine (h.resolve_left hr)
  · rfl

/-- The trims behind a tag take all of the padding of a text or nothing of it,
where a line ends in the text or where there is no such tag. -/
theorem padding_afterTag {tag : Option Verdict} {c : Content}
    (hends : tag = none ∨ c.value.endsLine = true)
    (hpadding : (afterTag tag c).value.padding ≠ []) :
    (afterTag tag c).value.padding = c.value.padding := by
  cases tag with
  | none => rfl
  | some v =>
      have hline : '\n' ∈ c.value := Text.mem_of_endsLine (hends.resolve_left nofun)
      rw [afterTag] at hpadding ⊢
      cases hafter : v.allAfter with
      | false => exact padding_ite_trimLine v.lineAfter (.inr hline)
      | true =>
          rw [hafter] at hpadding
          have hline' : c.trimStart.rightStripped = true ∨ '\n' ∈ c.trimStart.value := by
            by_cases htrim : c.value.trimStart = c.value
            · exact .inr (by rw [Content.trimStart_eq_self_iff.mpr htrim]; exact hline)
            · exact .inl (Content.withStart_rightStripped (Text.trimStart_isSuffix _) htrim)
          have hsame := padding_ite_trimLine v.lineAfter hline'
          exact hsame.trans (Text.padding_trimStart fun hnil => hpadding (hsame.trans hnil))

/-! ## One stop -/

/-- The value of the text before the tag of a list. -/
def Spot.valueBefore (x : Spot) : Text := ((textAt x.before).map Content.value).getD []

/-- The indent that a stop leaves in a partial is what the trim of a tag that
stands alone removed before it.  `ignoreStandalone` says that there are no such
trims. -/
structure Stop.Restores (ignoreStandalone : Bool) (x : Stop) (node : Inclusion) : Prop where
  valueBefore : x.alone.valueBefore ++ node.indent = x.marked.valueBefore
  blank : ∀ c ∈ node.indent, isBlank c = true
  standalone : x.verdict.inlineAlone = false → node.indent = []
  ignored : ignoreStandalone = true → node.indent = []

/-- What may stand before a tag: a text that at most the tag before it has
trimmed.  At the start of the template there is no such tag. -/
def Begun (before : List Statement) : Prop :=
  ∀ c more, before = .content c :: more →
    ∃ tag c₀, c₀.Fresh ∧ c = afterTag tag c₀ ∧ (more = [] → tag = none)

theorem losesPadding_trimEnd (c : Content) : losesPadding c.trimEnd = false := by
  have h : c.trimEnd.value.trimPadding = c.trimEnd.value :=
    Text.trimPadding_eq_self_of_trimEnd (Text.trimEnd_trimEnd c.value)
  rw [losesPadding, h, bne_self_eq_false, Bool.and_false]

/-- A trim of the padding and the padding as it was written make up the text. -/
theorem value_append_padding {c : Content}
    (h : losesPadding c = true → c.value.padding = c.written.padding) :
    c.trimPadding.value ++ (if losesPadding c then c.written.padding else []) = c.value := by
  cases hloses : losesPadding c with
  | false =>
      have hsame : c.trimPadding = c := by
        rw [losesPadding, Bool.and_eq_false_iff, Bool.not_eq_false', bne_eq_false_iff_eq] at hloses
        rw [Content.trimPadding_eq_self_iff]
        exact hloses.imp_right (Text.trimPadding_isPrefix c.value).eq_of_length
      rw [hsame]
      exact List.append_nil c.value
  | true =>
      rw [if_pos rfl, ← h hloses]
      rw [losesPadding, Bool.and_eq_true, Bool.not_eq_true'] at hloses
      rw [Content.trimPadding, hloses.1]
      exact Text.trimPadding_append_padding c.value

/-- Where a tag stands alone, the text before it still ends with the padding that was written
or with none. -/
theorem Begun.padding_eq {before : List Statement} {root : Bool} {c : Content} (h : Begun before)
    (hends : lineEnds root before = true) (hc : textAt before = some c)
    (hpadding : c.value.padding ≠ []) : c.value.padding = c.written.padding := by
  match before with
  | .content c' :: more =>
      obtain rfl : c' = c := Option.some.inj hc
      obtain ⟨tag, c₀, ⟨hvalue, -, -⟩, rfl, htag⟩ := h c' more rfl
      rw [(trimsTo_afterTag tag c₀).written_eq, ← hvalue]
      refine padding_afterTag ?_ hpadding
      rw [lineEnds, (trimsTo_afterTag tag c₀).written_eq, ← hvalue, Bool.or_eq_true] at hends
      rcases hends with hends | hends
      · exact .inr hends
      · simp only [Bool.and_eq_true, List.isEmpty_iff] at hends
        exact .inl (htag hends.1.2)

/-- The same after the trim at a marker of the tag, which leaves no padding. -/
theorem Begun.padding_eq_marked {before : List Statement} {root marked : Bool} {c : Content}
    (h : Begun before) (hends : lineEnds root before = true) (hc : textAt before = some c)
    (hloses : losesPadding (if marked then c.trimEnd else c) = true) :
    (if marked then c.trimEnd else c).value.padding =
      (if marked then c.trimEnd else c).written.padding := by
  cases marked with
  | true => exact absurd hloses (by simp [losesPadding_trimEnd])
  | false =>
      refine h.padding_eq hends hc (Text.padding_ne_nil_of_length ?_)
      simp only [losesPadding, Bool.and_eq_true, bne_iff_ne] at hloses
      exact hloses.2

theorem Spot.valueBefore_markers (v : Verdict) (x : Spot) : (x.markers v).valueBefore =
    ((textAt x.before).map fun c => (if v.allBefore then c.trimEnd else c).value).getD [] := by
  rw [valueBefore, markers_before, textAt_onFirst, Option.map_map]
  rfl

theorem Spot.valueBefore_inline (v : Verdict) (x : Spot) : (x.inline v).valueBefore =
    ((textAt x.before).map fun c => (if v.inlineAlone then c.trimPadding else c).value).getD [] := by
  rw [valueBefore, inline_before, textAt_onFirst, Option.map_map]
  rfl

/-- The indent behind a text, told by what a marker of the tag leaves of this text. -/
theorem indentAfter_nil (v : Verdict) (c : Content) : indentAfter v c [] =
    if v.inlineAlone && losesPadding (if v.allBefore then c.trimEnd else c) then
      (if v.allBefore then c.trimEnd else c).written.padding
    else [] := by
  rw [indentAfter, losesPadding, Bool.and_assoc]

theorem indentAfter_of_attached {v : Verdict} (h : v.inlineAlone = false) (c : Content) :
    indentAfter v c [] = [] := by
  rw [indentAfter_nil, h]
  rfl

theorem isBlank_of_mem_indentAfter {v : Verdict} {c : Content} :
    ∀ x ∈ indentAfter v c [], isBlank x = true := by
  rw [indentAfter_nil]
  cases v.inlineAlone && losesPadding (if v.allBefore then c.trimEnd else c) with
  | false => exact List.forall_mem_nil _
  | true => exact Text.trailing_all isBlank _

/-- What the trim of a tag that stands alone leaves of the text before it and the indent make up
this text. -/
theorem Begun.value_append_indentAfter {before : List Statement} {root : Bool} {v : Verdict}
    {c : Content} (h : Begun before) (hends : v.inlineAlone = true → lineEnds root before = true)
    (hc : textAt before = some c) :
    (if v.inlineAlone then (if v.allBefore then c.trimEnd else c).trimPadding
      else if v.allBefore then c.trimEnd else c).value ++ indentAfter v c [] =
    (if v.allBefore then c.trimEnd else c).value := by
  rw [indentAfter_nil]
  cases hv : v.inlineAlone with
  | false => exact List.append_nil _
  | true => exact value_append_padding (h.padding_eq_marked (hends hv) hc)

/-- The stop at a partial without an indent. -/
theorem Stop.restores {i root : Bool} {before rest : List Statement} {v : Verdict}
    {node node' : Inclusion} (h : Begun before) (hindent : node.indent = [])
    (hends : v.inlineAlone = true → i = false ∧ lineEnds root before = true)
    (hnode : Stop.inclusion? ⟨⟨before, .inclusion node, rest⟩, v⟩ = some node') :
    Stop.Restores i ⟨⟨before, .inclusion node, rest⟩, v⟩ node' := by
  rw [Stop.inclusion?, Stop.done, Spot.trim_here] at hnode
  have hmarked := Spot.valueBefore_markers v ⟨before, .inclusion node, rest⟩
  have halone := Spot.valueBefore_inline v (Spot.markers v ⟨before, .inclusion node, rest⟩)
  rw [Spot.markers_before, textAt_onFirst] at halone
  cases hc : textAt before with
  | none =>
      simp only [hc, Option.map_none, Option.getD_none, finish, Statement.inclusion?,
        Option.some.injEq] at hmarked halone hnode
      subst hnode
      rw [← hindent] at hmarked
      refine ⟨?_, ?_, fun _ => hindent, fun _ => hindent⟩
      · rw [Stop.alone, Stop.marked, halone, hmarked]; rfl
      · rw [hindent]
        exact List.forall_mem_nil _
  | some c =>
      simp only [hc, hindent, Option.map_some, Option.getD_some, finish, Statement.inclusion?,
        Option.some.injEq] at hmarked halone hnode
      subst hnode
      refine ⟨?_, isBlank_of_mem_indentAfter, fun hv => indentAfter_of_attached hv c,
        fun hi => indentAfter_of_attached (Bool.eq_false_iff.mpr fun hv => ?_) c⟩
      · rw [Stop.alone, Stop.marked, halone, hmarked]
        exact h.value_append_indentAfter (fun hv => (hends hv).2) hc
      · exact Bool.false_ne_true ((hends hv).1.symm.trans hi)

end Layout

/-! ## All stops -/

/-- A statement that whitespace control has not touched: a text is as it was
written, and a partial has no indent. -/
def Statement.Untouched : Statement → Prop
  | .content c => c.Fresh
  | .inclusion node => node.indent = []
  | _ => True

/-- A tree that whitespace control has not touched. -/
def Node.Untouched (whole : Node) : Prop := ∀ s, (Node.statement s).Within whole → s.Untouched

namespace Layout

theorem begun_nil : Begun [] := fun _ _ h => nomatch h

theorem begun_of_ne {s : Statement} (hs : ∀ c, s ≠ .content c) (before : List Statement) :
    Begun (s :: before) :=
  fun c _ h => absurd (List.cons.inj h).1 (hs c)

theorem judge_inlineAlone {i root : Bool} {strip : Strip} {before after : List Statement}
    (h : (judge i root strip before after).inlineAlone = true) :
    i = false ∧ lineEnds root before = true := by
  simp only [judge, Bool.and_eq_true, Bool.not_eq_true'] at h
  exact ⟨h.1.1.1, h.1.2⟩

section

variable {i : Bool} {whole : Node}

/-- The stop at a tag of a list. -/
theorem restores_judge (root : Bool) {s s' : Statement} {strip : Strip}
    {before : List Statement} (rest : List Statement) (hbegun : Begun before)
    (hs : s.Untouched) (hsettle : settle i s = (s', some strip)) (node : Inclusion)
    (hnode : Stop.inclusion? ⟨⟨before, s', rest⟩, judge i root strip before rest⟩ = some node) :
    Stop.Restores i ⟨⟨before, s', rest⟩, judge i root strip before rest⟩ node := by
  obtain rfl : (settle i s).1 = s' := congrArg Prod.fst hsettle
  rcases s.inclusion_or_ne with ⟨node₀, rfl⟩ | hne
  · exact Stop.restores hbegun hs judge_inlineAlone hnode
  · rw [Stop.inclusion?, Stop.done, Spot.trim_here, Statement.inclusion?_eq_none
      (finish_ne_inclusion (settle_ne_inclusion i hne) _ _)] at hnode
    cases hnode

mutual

/-- The stops over a program in a tree that whitespace control has not
touched. -/
theorem restores_program (hwhole : whole.Untouched) (root : Bool) :
    ∀ p : Program, (Node.program p).Within whole →
    ∀ x ∈ programStops i root p, ∀ node, x.inclusion? = some node → x.Restores i node
  | ⟨body, blockParams, chained, loc⟩, hp => by
      have hbody : ∀ s ∈ body, (Node.statement s).Within whole := fun s hs =>
        .part (List.mem_append_left _ (List.mem_map_of_mem hs)) hp
      have h := restores_statements hwhole root body none hbody begun_nil fun _ => rfl
      rw [onFirst_afterTag_none] at h
      rw [programStops]
      exact h

theorem restores_statements (hwhole : whole.Untouched) (root : Bool) :
    ∀ (body : List Statement) {before : List Statement} (tag : Option Verdict),
      (∀ s ∈ body, (Node.statement s).Within whole) → Begun before →
      (before = [] → tag = none) →
      ∀ x ∈ bodyStops i root before (onFirst (afterTag tag) body),
        ∀ node, x.inclusion? = some node → x.Restores i node
  | [], before, tag, _, _, _ => by
      show ∀ x ∈ bodyStops i root before [], _
      rw [bodyStops]
      exact fun _ hx => nomatch hx
  | s :: rest, before, tag, hbody, hbegun, htag => by
      have hs := hbody s List.mem_cons_self
      have hrest : ∀ t ∈ rest, (Node.statement t).Within whole := fun t ht =>
        hbody t (List.mem_cons_of_mem s ht)
      rcases s.content_or_ne with ⟨c, rfl⟩ | hne
      · have hcontent : Begun (.content (afterTag tag c) :: before) := by
          intro c' more h
          obtain ⟨hc, hmore⟩ := List.cons.inj h
          obtain rfl := Statement.content.inj hc
          exact ⟨tag, c, hwhole _ hs, rfl, hmore ▸ htag⟩
        have h := restores_statements hwhole root rest none hrest hcontent fun _ => rfl
        rw [onFirst_afterTag_none] at h
        show ∀ x ∈ bodyStops i root before (.content (afterTag tag c) :: rest), _
        rw [bodyStops, statementStops]
        exact h
      · obtain ⟨s', strip, hsettle, hs'⟩ := settle_of_ne i hne
        have hone := restores_judge root rest hbegun (hwhole s hs) hsettle
        obtain ⟨v, hv⟩ : ∃ v, v = judge i root strip before rest := ⟨_, rfl⟩
        have hmore := restores_statements hwhole root rest (some v) hrest
          (begun_of_ne (finish_of_ne hs' (textAt before) v) (onFirst (beforeTag (some v)) before))
          nofun
        rw [onFirst_cons_of_ne _ hne, bodyStops, hsettle]
        refine List.forall_mem_append.mpr
          ⟨restores_statement hwhole s hs, List.forall_mem_cons.mpr ⟨hone, ?_⟩⟩
        show ∀ x ∈ bodyStops i root
          ((Spot.trim (judge i root strip before rest) ⟨before, s', rest⟩).here ::
            (Spot.trim (judge i root strip before rest) ⟨before, s', rest⟩).before)
          (Spot.trim (judge i root strip before rest) ⟨before, s', rest⟩).after, _
        rw [← hv, Spot.trim_here, Spot.trim_before, Spot.trim_after]
        exact hmore

theorem restores_statement (hwhole : whole.Untouched) :
    ∀ s : Statement, (Node.statement s).Within whole →
    ∀ x ∈ statementStops i s, ∀ node, x.inclusion? = some node → x.Restores i node
  | .mustache _, _ | .decorator _, _ | .comment _, _ | .content _, _ | .inclusion _, _ => by
      rw [statementStops]
      exact fun _ hx => nomatch hx
  | .block ⟨_, main, inverse, _, _, _, _⟩, hs
  | .decoratorBlock ⟨_, main, inverse, _, _, _, _⟩, hs => by
      have hmain := restores_section hwhole main fun q hq =>
        .part (List.mem_append_right _ (List.mem_map_of_mem (List.mem_append_left _ hq))) hs
      have hinverse := restores_section hwhole inverse fun q hq =>
        .part (List.mem_append_right _ (List.mem_map_of_mem (List.mem_append_right _ hq))) hs
      rw [statementStops]
      exact List.forall_mem_append.mpr ⟨hmain, hinverse⟩
  | .inclusionBlock ⟨_, main, _, _, _⟩, hs => by
      rw [statementStops]
      exact restores_program hwhole false main
        (.part (List.mem_append_right _ (List.mem_singleton_self _)) hs)

theorem restores_section (hwhole : whole.Untouched) : ∀ p : Option Program,
    (∀ q ∈ p.toList, (Node.program q).Within whole) →
    ∀ x ∈ sectionStops i p, ∀ node, x.inclusion? = some node → x.Restores i node
  | none, _ => by
      rw [sectionStops]
      exact fun _ hx => nomatch hx
  | some p, hp => by
      rw [sectionStops]
      exact restores_program hwhole false p (hp p (List.mem_singleton_self p))

end

end

end Layout

/-! ## Accepted templates -/

/-- The tree of an accepted template before whitespace control. -/
theorem untouched_of_parseRaw {o : Options} {text : Text} {p : Program}
    (h : parseRaw o text = .ok p) : (Node.program p).Untouched := by
  intro s hs
  obtain ⟨before, own, after, -, hown⟩ := Grammar.exists_of_structural
    (Grammar.writesNode_of_writesProgram (writesProgram_of_parseRaw h)) hs trivial
  cases hown with
  | link _ => trivial
  | statement hown =>
      cases hown with
      | content => exact ⟨rfl, rfl, rfl⟩
      | comment => trivial
      | plain _ | unescaped _ =>
          obtain ⟨escaped, hs | hs⟩ := Builder.exists_of_mustache _ _ _ _ <;> rw [hs] <;> trivial
      | inclusion _ => exact rfl
      | rawBlock _ _ hblock => rw [Builder.eq_of_rawBlock hblock]; trivial
      | block _ _ _ _ hblock =>
          obtain ⟨decorator, inverse, node, -, hs, -⟩ := Builder.exists_of_block hblock
          rcases hs with rfl | rfl <;> trivial
      | inclusionBlock _ _ _ hblock => rw [Builder.eq_of_inclusionBlock hblock]; trivial

namespace Layout

/-- **The indent of a partial is what its own trim removed.**  The pass over the tree of an
accepted template comes to each of its partials once, at a stop of its own.  What the trim of a
tag that stands alone leaves of the text before it and the indent make up that text as the trim
found it.  The indent stays empty where the trim takes nothing or is not made. -/
theorem Control.restores_of_parseRaw {o : Options} {text : Text} {p : Program}
    (h : parseRaw o text = .ok p) (c : Control) :
    (∃ visits, c.edit p = ⟨.ok (c.normalize p), visits, []⟩) ∧
      (c.normalize p).1.inclusions = (c.stops p).filterMap Stop.inclusion? ∧
      ∀ x ∈ c.stops p, ∀ node, x.inclusion? = some node →
        x.Restores c.ignoreStandalone node :=
  ⟨c.edit_eq p, (inclusions_program c.ignoreStandalone (!c.rootSeen) p).symm,
    restores_program (untouched_of_parseRaw h) (!c.rootSeen) p .refl⟩

/-- The template `a`, a partial behind two blanks on its own line, `{{b~}}`, and a partial behind
a tab on the line after. -/
def indentedPartials : Text :=
  "a\n  \x7b\x7b> item\x7d\x7d\n\x7b\x7bb~\x7d\x7d \n\t\x7b\x7b> item\x7d\x7d\n".toList

/-- The first partial takes the two blanks.  Both stand alone, but the marker of the tag before
the second one has taken the tab already. -/
theorem Control.restores_indentedPartials : ∃ p, parseRaw {} indentedPartials = .ok p ∧
    (Control.normalize {} p).1.inclusions.map Inclusion.indent = ["  ".toList, []] ∧
    (Control.normalize {} p).1.inclusions = (Control.stops {} p).filterMap Stop.inclusion? ∧
    ∀ x ∈ Control.stops {} p, ∀ node, x.inclusion? = some node → x.Restores false node := by
  obtain ⟨p, hp, hindents⟩ : ∃ p, parseRaw {} indentedPartials = .ok p ∧
      (Control.normalize {} p).1.inclusions.map Inclusion.indent = ["  ".toList, []] :=
    ⟨_, by cbv, by cbv⟩
  obtain ⟨-, hinclusions, hrestores⟩ := Control.restores_of_parseRaw hp {}
  exact ⟨p, hp, hindents, hinclusions, hrestores⟩

end Layout
end Stache
