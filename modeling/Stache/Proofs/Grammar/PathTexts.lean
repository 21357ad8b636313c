import Stache.Proofs.Grammar.Moved
import Stache.Proofs.Token.Copies

/-!
# Paths of one text

The text of a path tells what it starts from, and the names behind that as long as they show in
the text.  If it starts from a call, the text of the call is a piece of the template.  Where the
same piece stands twice, it has the same tokens, and these write the same call.  So paths with
the same text are equal up to places (`unlocated_of_writesPath`).
-/

namespace Stache

/-! ## Calls of one text -/

namespace Grammar

variable {g : Grammar} {square : Bool} {sub sub' : SubExpr}

/-- A call in parentheses is read off its text. -/
theorem exists_inTag_of_call {s s' : Span} {ls before after : List Lexeme} {called : Call}
    (h : g.WritesCall ls called)
    (hls : (tokenize square g.text).lexemes = before ++ (parens s ls s' ++ after)) :
    ∃ u v flag, g.text = u ++ ((g.subOf called (parens s ls s')).written ++ v) ∧
      InTag square v flag u.byteLength (g.subOf called (parens s ls s')).written
        (parens s ls s') ∧ s.start = u.byteLength := by
  have hne : parens s ls s' ≠ [] := List.cons_ne_nil _ _
  obtain ⟨u, w, v, flag, htext, hin, hcovered⟩ :=
    exists_inTag hne (inner_parens (inner_of_writesCall h)) hls
  obtain rfl : (g.subOf called (parens s ls s')).written = w := by
    show g.text.slice (covered _).start (covered _).stop = w
    rw [hcovered, htext]
    exact Text.slice_append u w v
  exact ⟨u, v, flag, htext, hin, congrArg Span.start hcovered⟩

/-- A call in parentheses starts and ends with them. -/
theorem Stands.exists_written (h : g.Stands square sub) :
    ∃ t, sub.written = '(' :: (t ++ [')']) := by
  cases h with
  | @mk s s' ls _ _ called h hls =>
      obtain ⟨u, v, _, -, hin, hstart⟩ := exists_inTag_of_call h hls
      obtain ⟨_, cs, hwritten, rfl, hin⟩ := hin.exists_spells hstart
      obtain ⟨_, t, rfl, rfl⟩ := hin.exists_spells_last
      exact ⟨t, hwritten⟩

/-- The tokens of the second of two copies are those of the first, moved, and write the same. -/
theorem unlocated_of_inTag (hg : g.Literal) {s s₁ s' s₁' : Span} {ls ls' : List Lexeme}
    {called called' : Call} {flag flag' : Bool} {u u' v v' w : Text} (h : g.WritesCall ls called)
    (h' : g.WritesCall ls' called') (hcopy : u' ++ (w ++ v') = u ++ (w ++ v))
    (htext : g.text = u ++ (w ++ v))
    (hin : InTag square v flag u.byteLength w (parens s ls s₁))
    (hin' : InTag square v' flag' u'.byteLength w (parens s' ls' s₁'))
    (hstart : s.start = u.byteLength) (hstart' : s'.start = u'.byteLength)
    (hle : u.byteLength ≤ u'.byteLength) : called'.unlocated = called.unlocated := by
  obtain ⟨n, hn⟩ := Nat.exists_eq_add_of_le hle
  have hcopied : g.Copied n (parens s ls s₁) := by
    intro own hown
    rw [htext]
    exact hin.slice_shift hcopy hn hown
  rw [hn] at hin' hstart'
  have hmoved := hin.call_eq_shift hin' hstart hstart' (inner_of_writesCall h)
    (inner_of_writesCall h')
  have hinside := hcopied.of_infix ⟨[_], [_], rfl⟩
  exact (moves_of_writesCall hg h h' hinside hmoved (.cons rfl) (.cons rfl)).2

/-- **Calls of one text are the same** up to places. -/
theorem Stands.unlocated_eq (hg : g.Literal) (h : g.Stands square sub) (h' : g.Stands square sub')
    (hwritten : sub'.written = sub.written) : sub'.unlocated = sub.unlocated := by
  cases h with
  | @mk s s₁ ls _ _ called h hls =>
      cases h' with
      | @mk s' s₁' ls' _ _ called' h' hls' =>
          refine unlocated_subOf ?_ hwritten
          obtain ⟨u, v, flag, htext, hin, hstart⟩ := exists_inTag_of_call h hls
          obtain ⟨u', v', flag', htext', hin', hstart'⟩ := exists_inTag_of_call h' hls'
          rw [hwritten] at htext' hin'
          have hcopy := htext'.symm.trans htext
          rcases Nat.le_total u.byteLength u'.byteLength with hle | hle
          · exact unlocated_of_inTag hg h h' hcopy htext hin hin' hstart hstart' hle
          · exact (unlocated_of_inTag hg h' h hcopy.symm htext' hin' hin hstart' hstart hle).symm

end Grammar

/-! ## Paths of one text -/

/-- Texts that go on from the last of a character are cut there. -/
theorem append_cons_unique {a b u v : Text} {c : Char} (hu : c ∉ u) (hv : c ∉ v)
    (h : a ++ c :: u = b ++ c :: v) : a = b ∧ u = v := by
  rcases List.append_eq_append_iff.mp h with ⟨more, rfl, hmore⟩ | ⟨more, rfl, hmore⟩
  · cases more with
    | nil => exact ⟨(List.append_nil a).symm, (List.cons.inj hmore).2⟩
    | cons d more =>
        exact absurd (by rw [(List.cons.inj hmore).2]; simp) hu
  · cases more with
    | nil => exact ⟨List.append_nil b, (List.cons.inj hmore).2.symm⟩
    | cons d more =>
        exact absurd (by rw [(List.cons.inj hmore).2]; simp) hv

namespace Builder

variable {data data' : Bool} {head head' : Option SubExpr} {l l' : List Segment}

/-- What a path starts from is told from the text in front of its segments. -/
theorem pathStart_injective (hdata : data = true → head = none)
    (hdata' : data' = true → head' = none)
    (hhead : ∀ sub ∈ head, ∃ t, sub.written = '(' :: (t ++ [')']))
    (hhead' : ∀ sub ∈ head', ∃ t, sub.written = '(' :: (t ++ [')']))
    (h : pathStart data head = pathStart data' head') :
    data = data' ∧ head.map SubExpr.written = head'.map SubExpr.written := by
  have hplain {data : Bool} {sub : SubExpr} (hsub : ∃ t, sub.written = '(' :: (t ++ [')']))
      (h : pathStart data none = pathStart false (some sub)) : False := by
    obtain ⟨t, ht⟩ := hsub
    rw [pathStart, pathStart, ht] at h
    cases data <;> cases h
  have hfalse {data : Bool} {sub : SubExpr} (hdata : data = true → some sub = none) :
      data = false := Bool.eq_false_iff.mpr fun h => by cases hdata h
  cases head with
  | none =>
      cases head' with
      | none => cases data <;> cases data' <;> first | exact ⟨rfl, rfl⟩ | cases h
      | some sub' =>
          obtain rfl := hfalse hdata'
          exact (hplain (hhead' sub' rfl) h).elim
  | some sub =>
      obtain rfl := hfalse hdata
      cases head' with
      | none => exact (hplain (hhead sub rfl) h.symm).elim
      | some sub' =>
          obtain rfl := hfalse hdata'
          exact ⟨rfl, congrArg some (List.append_cancel_right h)⟩

/-- The text of the segments is told from that of the path. -/
theorem segments_unique (h : Segment.Row l) (h' : Segment.Row l')
    (hdata : data = true → head = none) (hdata' : data' = true → head' = none)
    (hhead : ∀ sub ∈ head, ∃ t, sub.written = '(' :: (t ++ [')']))
    (hhead' : ∀ sub ∈ head', ∃ t, sub.written = '(' :: (t ++ [')']))
    (htext : pathStart data head ++ l.flatMap Segment.text =
      pathStart data' head' ++ l'.flatMap Segment.text) :
    l.flatMap Segment.text = l'.flatMap Segment.text := by
  obtain ⟨c, r, hl, hat, hparen⟩ := h.exists_text
  obtain ⟨c', r', hl', hat', hparen'⟩ := h'.exists_text
  have hmem := h.not_mem
  have hmem' := h'.not_mem
  cases head with
  | none =>
      cases head' with
      | none =>
          cases data <;> cases data'
          · exact htext
          · rw [hl] at htext
            exact absurd (List.cons.inj htext).1 hat
          · rw [hl'] at htext
            exact absurd (List.cons.inj htext).1.symm hat'
          · exact (List.cons.inj htext).2
      | some sub' =>
          obtain ⟨t, ht⟩ := hhead' sub' rfl
          rw [hl, pathStart, pathStart, ht] at htext
          cases data
          · exact absurd (List.cons.inj htext).1 hparen
          · exact absurd (List.cons.inj htext).1 (by decide)
  | some sub =>
      obtain ⟨t, ht⟩ := hhead sub rfl
      cases head' with
      | none =>
          rw [hl', pathStart, pathStart, ht] at htext
          cases data'
          · exact absurd (List.cons.inj htext).1.symm hparen'
          · exact absurd (List.cons.inj htext).1.symm (by decide)
      | some sub' =>
          obtain ⟨t', ht'⟩ := hhead' sub' rfl
          have hclosed : ('(' :: t) ++ ')' :: '.' :: l.flatMap Segment.text =
              ('(' :: t') ++ ')' :: '.' :: l'.flatMap Segment.text := by
            rw [pathStart, pathStart, ht, ht'] at htext
            simpa using htext
          have hrest := (append_cons_unique
            (fun hdot => (List.mem_cons.mp hdot).elim (by decide) hmem)
            (fun hdot => (List.mem_cons.mp hdot).elim (by decide) hmem') hclosed).2
          exact (List.cons.inj hrest).2

end Builder

/-- **Paths of one text are the same** up to places, as long as they have the same segments or
these show in it. -/
theorem Grammar.unlocated_of_writesPath {g : Grammar} {square : Bool} (hg : g.Literal)
    {ls ls' before after before' after' : List Lexeme} {segments segments' : List Segment}
    {p p' : Path} (hls : (tokenize square g.text).lexemes = before ++ (ls ++ after))
    (hls' : (tokenize square g.text).lexemes = before' ++ (ls' ++ after'))
    (h : g.WritesPath ls segments p) (h' : g.WritesPath ls' segments' p')
    (hsegments : segments' = segments ∨
      (∀ s ∈ segments, s.Clear) ∧ ∀ s ∈ segments', s.Clear)
    (hwritten : p'.written = p.written) : p'.unlocated = p.unlocated := by
  obtain ⟨data, head, x, hpath, hdata, hhead, hrow⟩ := exists_path_of_writesPath hls h
  obtain ⟨data', head', x', hpath', hdata', hhead', hrow'⟩ := exists_path_of_writesPath hls' h'
  have hparens := fun sub hsub => (hhead sub hsub).exists_written
  have hparens' := fun sub hsub => (hhead' sub hsub).exists_written
  rw [Builder.written_of_path hpath, Builder.written_of_path hpath'] at hwritten
  have hlike : segments'.flatMap Segment.text = segments.flatMap Segment.text ∧
      ∀ q, segments'.foldlM PathPrefix.add q = segments.foldlM PathPrefix.add q := by
    rcases hsegments with rfl | ⟨hclear, hclear'⟩
    · exact ⟨rfl, fun _ => rfl⟩
    · have htext := Builder.segments_unique (hrow' hclear') (hrow hclear) hdata' hdata hparens'
        hparens hwritten
      exact ⟨htext, PathPrefix.foldlM_congr ((hrow' hclear').unique (hrow hclear) htext)⟩
  rw [hlike.1] at hwritten
  obtain ⟨rfl, hcall⟩ := Builder.pathStart_injective hdata' hdata hparens' hparens
    (List.append_cancel_right hwritten)
  refine Builder.unlocated_of_path ?_ hlike.2 hpath hpath'
  rcases cases_of_map_eq hcall with ⟨rfl, rfl⟩ | ⟨sub', sub, rfl, rfl, hsub⟩
  · rfl
  · exact congrArg some ((hhead sub rfl).unlocated_eq hg (hhead' sub' rfl) hsub)

end Stache
