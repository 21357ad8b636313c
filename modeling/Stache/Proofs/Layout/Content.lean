import Stache.Layout.Edge
import Stache.Proofs.Text.Trim

/-!
# Trims of one text

Whatever whitespace control does to a piece of text is one of four trims, and
what it does to the same piece over time is a sequence of them.  `TrimsTo` says
that one state of a piece of text leads to another in this way.

Two facts about such sequences carry the theory of the pass.

* A trim is *settled* on a text when it would change nothing, neither the text
  nor what the text remembers.  Right after a trim it is settled, and no later
  trim unsettles it (`Content.TrimsTo.settled`).
* Only white space goes, from the two ends, and an end remembers a trim exactly
  if something went there (`Content.TrimsTo.loses`).
-/

namespace Stache

/-! ## The four trims -/

/-- A trim that whitespace control makes. -/
inductive Trim where
  /-- All white space at the start. -/
  | start
  /-- One line of padding at the start. -/
  | line
  /-- All white space at the end. -/
  | finish
  /-- The padding at the end. -/
  | padding
deriving DecidableEq, Repr

/-- A trim carried out. -/
def Trim.apply : Trim → Content → Content
  | .start => Content.trimStart
  | .line => Content.trimLine
  | .finish => Content.trimEnd
  | .padding => Content.trimPadding

namespace Content

variable (c : Content) (value : Text)

@[simp] theorem withStart_value : (c.withStart value).value = value := rfl

@[simp] theorem withStart_written : (c.withStart value).written = c.written := rfl

@[simp] theorem withStart_loc : (c.withStart value).loc = c.loc := rfl

@[simp] theorem withStart_leftStripped : (c.withStart value).leftStripped = c.leftStripped := rfl

@[simp] theorem withEnd_value : (c.withEnd value).value = value := rfl

@[simp] theorem withEnd_written : (c.withEnd value).written = c.written := rfl

@[simp] theorem withEnd_loc : (c.withEnd value).loc = c.loc := rfl

@[simp] theorem withEnd_rightStripped : (c.withEnd value).rightStripped = c.rightStripped := rfl

theorem withStart_self : c.withStart c.value = c := by
  simp [withStart]

theorem withEnd_self : c.withEnd c.value = c := by
  simp [withEnd]

/-- The start remembers a trim that took something. -/
theorem withStart_rightStripped {c : Content} {value : Text} (h : value <:+ c.value)
    (hne : value ≠ c.value) : (c.withStart value).rightStripped = true := by
  have hlen : value.length ≠ c.value.length := fun he => hne (h.eq_of_length he)
  simp [withStart, hlen]

/-- The end remembers a trim that took something. -/
theorem withEnd_leftStripped {c : Content} {value : Text} (h : value <+: c.value)
    (hne : value ≠ c.value) : (c.withEnd value).leftStripped = true := by
  have hlen : value.length ≠ c.value.length := fun he => hne (h.eq_of_length he)
  simp [withEnd, hlen]

/-! ## Settled trims -/

theorem trimStart_eq_self_iff {c : Content} : c.trimStart = c ↔ c.value.trimStart = c.value := by
  constructor
  · intro h
    exact congrArg Content.value h
  · intro h
    rw [trimStart, h, withStart_self]

theorem trimEnd_eq_self_iff {c : Content} : c.trimEnd = c ↔ c.value.trimEnd = c.value := by
  constructor
  · intro h
    exact congrArg Content.value h
  · intro h
    rw [trimEnd, h, withEnd_self]

theorem trimLine_eq_self_iff {c : Content} :
    c.trimLine = c ↔ c.rightStripped = true ∨ c.value.trimLine = c.value := by
  rw [trimLine]
  by_cases hr : c.rightStripped = true
  · simp [hr]
  · rw [if_neg hr]
    constructor
    · intro h
      exact .inr (congrArg Content.value h)
    · rintro (h | h)
      · exact absurd h hr
      · rw [h, withStart_self]

theorem trimPadding_eq_self_iff {c : Content} :
    c.trimPadding = c ↔ c.leftStripped = true ∨ c.value.trimPadding = c.value := by
  rw [trimPadding]
  by_cases hl : c.leftStripped = true
  · simp [hl]
  · rw [if_neg hl]
    constructor
    · intro h
      exact .inr (congrArg Content.value h)
    · rintro (h | h)
      · exact absurd h hl
      · rw [h, withEnd_self]

end Content

namespace Trim

/-- A trim twice is the trim once. -/
theorem apply_apply (t : Trim) (c : Content) : t.apply (t.apply c) = t.apply c := by
  cases t with
  | start =>
      exact Content.trimStart_eq_self_iff.mpr (Text.trimStart_trimStart c.value)
  | finish =>
      exact Content.trimEnd_eq_self_iff.mpr (Text.trimEnd_trimEnd c.value)
  | line =>
      refine Content.trimLine_eq_self_iff.mpr ?_
      rw [apply, Content.trimLine]
      split
      · next h => exact .inl h
      · by_cases hv : c.value.trimLine = c.value
        · rw [hv, Content.withStart_self]
          exact .inr hv
        · exact .inl (Content.withStart_rightStripped (Text.trimLine_isSuffix _) hv)
  | padding =>
      refine Content.trimPadding_eq_self_iff.mpr ?_
      rw [apply, Content.trimPadding]
      split
      · next h => exact .inl h
      · by_cases hv : c.value.trimPadding = c.value
        · rw [hv, Content.withEnd_self]
          exact .inr hv
        · exact .inl (Content.withEnd_leftStripped (Text.trimPadding_isPrefix _) hv)

/-- What an end remembers it does not forget. -/
theorem rightStripped_apply (t : Trim) {c : Content} (h : c.rightStripped = true) :
    (t.apply c).rightStripped = true := by
  cases t with
  | start => simp [apply, Content.trimStart, Content.withStart, h]
  | line => simp [apply, Content.trimLine, h]
  | finish => simpa [apply, Content.trimEnd] using h
  | padding =>
      rw [apply, Content.trimPadding]
      split
      · exact h
      · simpa using h

theorem leftStripped_apply (t : Trim) {c : Content} (h : c.leftStripped = true) :
    (t.apply c).leftStripped = true := by
  cases t with
  | start => simpa [apply, Content.trimStart] using h
  | line =>
      rw [apply, Content.trimLine]
      split
      · exact h
      · simpa using h
  | finish => simp [apply, Content.trimEnd, Content.withEnd, h]
  | padding => simp [apply, Content.trimPadding, h]

/-- Every trim leaves a piece of the text from its start, where the start needs
no trim. -/
theorem value_apply_isPrefix (t : Trim) {c : Content} (h : c.value.trimStart = c.value) :
    (t.apply c).value <+: c.value := by
  cases t with
  | start => exact h ▸ List.prefix_rfl
  | line =>
      rw [apply, Content.trimLine]
      split
      · exact List.prefix_rfl
      · simp only [Content.withStart_value, Text.trimLine_eq_self_of_trimStart h, List.prefix_rfl]
  | finish => exact Text.trimEnd_isPrefix c.value
  | padding =>
      rw [apply, Content.trimPadding]
      split
      · exact List.prefix_rfl
      · exact Text.trimPadding_isPrefix c.value

/-- Every trim leaves a piece of the text up to its end, where the end needs no
trim. -/
theorem value_apply_isSuffix (t : Trim) {c : Content} (h : c.value.trimEnd = c.value) :
    (t.apply c).value <:+ c.value := by
  cases t with
  | start => exact Text.trimStart_isSuffix c.value
  | line =>
      rw [apply, Content.trimLine]
      split
      · exact List.suffix_rfl
      · exact Text.trimLine_isSuffix c.value
  | finish => exact h ▸ List.suffix_rfl
  | padding =>
      rw [apply, Content.trimPadding]
      split
      · exact List.suffix_rfl
      · simp only [Content.withEnd_value, Text.trimPadding_eq_self_of_trimEnd h, List.suffix_rfl]

/-- A line trim that is settled stays so, since the other trims of the start
leave a mark and those of the end leave the start alone. -/
theorem trimLine_apply (t : Trim) {c : Content} (h : c.trimLine = c) :
    (t.apply c).trimLine = t.apply c := by
  rw [Content.trimLine_eq_self_iff]
  rcases Content.trimLine_eq_self_iff.mp h with hr | hv
  · exact .inl (rightStripped_apply t hr)
  · cases t with
    | start =>
        by_cases hs : c.value.trimStart = c.value
        · rw [apply, Content.trimStart_eq_self_iff.mpr hs]
          exact .inr hv
        · exact .inl (Content.withStart_rightStripped (Text.trimStart_isSuffix _) hs)
    | line =>
        rw [apply, h]
        exact .inr hv
    | finish =>
        exact .inr (Text.trimLine_eq_self_of_isPrefix (Text.trimEnd_isPrefix _) hv)
    | padding =>
        rw [apply, Content.trimPadding]
        split
        · exact .inr hv
        · exact .inr (Text.trimLine_eq_self_of_isPrefix (Text.trimPadding_isPrefix _) hv)

theorem trimPadding_apply (t : Trim) {c : Content} (h : c.trimPadding = c) :
    (t.apply c).trimPadding = t.apply c := by
  rw [Content.trimPadding_eq_self_iff]
  rcases Content.trimPadding_eq_self_iff.mp h with hl | hv
  · exact .inl (leftStripped_apply t hl)
  · cases t with
    | start =>
        exact .inr (Text.trimPadding_eq_self_of_isSuffix (Text.trimStart_isSuffix _) hv)
    | line =>
        rw [apply, Content.trimLine]
        split
        · exact .inr hv
        · exact .inr (Text.trimPadding_eq_self_of_isSuffix (Text.trimLine_isSuffix _) hv)
    | finish =>
        by_cases hs : c.value.trimEnd = c.value
        · rw [apply, Content.trimEnd_eq_self_iff.mpr hs]
          exact .inr hv
        · exact .inl (Content.withEnd_leftStripped (Text.trimEnd_isPrefix _) hs)
    | padding =>
        rw [apply, h]
        exact .inr hv

/-- A settled trim stays settled whatever is trimmed next. -/
theorem apply_settled (t u : Trim) {c : Content} (h : t.apply c = c) :
    t.apply (u.apply c) = u.apply c := by
  cases t with
  | start =>
      have hv := Content.trimStart_eq_self_iff.mp h
      exact Content.trimStart_eq_self_iff.mpr
        (Text.trimStart_eq_self_of_isPrefix (value_apply_isPrefix u hv) hv)
  | line => exact trimLine_apply u h
  | finish =>
      have hv := Content.trimEnd_eq_self_iff.mp h
      exact Content.trimEnd_eq_self_iff.mpr
        (Text.trimEnd_eq_self_of_isSuffix (value_apply_isSuffix u hv) hv)
  | padding => exact trimPadding_apply u h

end Trim

/-! ## Sequences of trims -/

/-- Trims lead from one state of a text to another. -/
inductive Content.TrimsTo (c : Content) : Content → Prop where
  | refl : TrimsTo c c
  /-- One more trim. -/
  | step (t : Trim) {d : Content} : TrimsTo c d → TrimsTo c (t.apply d)

namespace Content.TrimsTo

variable {c d e : Content}

theorem trans (hcd : c.TrimsTo d) (hde : d.TrimsTo e) : c.TrimsTo e := by
  induction hde with
  | refl => exact hcd
  | step t _ ih => exact ih.step t

theorem single (t : Trim) (c : Content) : c.TrimsTo (t.apply c) := .step t .refl

/-- A trim that was made is settled from then on. -/
theorem settled {t : Trim} (h : (t.apply c).TrimsTo d) : t.apply d = d := by
  induction h with
  | refl => exact t.apply_apply c
  | step u _ ih => exact t.apply_settled u ih

theorem written_eq (h : c.TrimsTo d) : d.written = c.written := by
  induction h with
  | refl => rfl
  | step t _ ih =>
      rw [← ih]
      cases t with
      | start => rfl
      | finish => rfl
      | line => simp only [Trim.apply, trimLine]; split <;> rfl
      | padding => simp only [Trim.apply, trimPadding]; split <;> rfl

end Content.TrimsTo

/-! ## What trims take away -/

/-- Only white space went, from the two ends.  An end remembers a trim exactly
if it did before or if something went there.  The text as written and its place
are the same. -/
structure Content.Loses (c d : Content) : Prop where
  /-- The value, with what went at its two ends. -/
  value : ∃ p s : Text, (∀ x ∈ p, isSpace x = true) ∧ (∀ x ∈ s, isSpace x = true) ∧
    c.value = p ++ d.value ++ s ∧
    d.rightStripped = (c.rightStripped || !p.isEmpty) ∧
    d.leftStripped = (c.leftStripped || !s.isEmpty)
  written : d.written = c.written
  loc : d.loc = c.loc

namespace Content.Loses

variable {c d e : Content}

theorem refl (c : Content) : c.Loses c :=
  ⟨⟨[], [], by simp, by simp, by simp, by simp, by simp⟩, rfl, rfl⟩

theorem trans (hcd : c.Loses d) (hde : d.Loses e) : c.Loses e := by
  obtain ⟨p, s, hp, hs, hv, hr, hl⟩ := hcd.value
  obtain ⟨p', s', hp', hs', hv', hr', hl'⟩ := hde.value
  refine ⟨⟨p ++ p', s' ++ s, ?_, ?_, ?_, ?_, ?_⟩, hde.written.trans hcd.written,
    hde.loc.trans hcd.loc⟩
  · intro x hx
    exact (List.mem_append.mp hx).elim (hp x) (hp' x)
  · intro x hx
    exact (List.mem_append.mp hx).elim (hs' x) (hs x)
  · rw [hv, hv']
    simp only [List.append_assoc]
  · rw [hr', hr]
    cases p <;> simp
  · rw [hl', hl]
    cases s <;> simp

/-- A new value that lacks white space at the start. -/
theorem withStart {value : Text}
    (h : ∃ p : Text, (∀ x ∈ p, isSpace x = true) ∧ c.value = p ++ value) :
    c.Loses (c.withStart value) := by
  obtain ⟨p, hp, hv⟩ := h
  refine ⟨⟨p, [], hp, by simp, by simpa using hv, ?_, by simp⟩, rfl, rfl⟩
  have hlen : (value.length != c.value.length) = !p.isEmpty := by
    rw [hv, List.length_append]
    cases p with
    | nil => simp
    | cons x p => simp
  rw [Content.withStart, hlen]

/-- A new value that lacks white space at the end. -/
theorem withEnd {value : Text}
    (h : ∃ s : Text, (∀ x ∈ s, isSpace x = true) ∧ c.value = value ++ s) :
    c.Loses (c.withEnd value) := by
  obtain ⟨s, hs, hv⟩ := h
  refine ⟨⟨[], s, by simp, hs, by simpa using hv, by simp, ?_⟩, rfl, rfl⟩
  have hlen : (value.length != c.value.length) = !s.isEmpty := by
    rw [hv, List.length_append]
    cases s with
    | nil => simp
    | cons x s => simp
  rw [Content.withEnd, hlen]

theorem apply (t : Trim) (c : Content) : c.Loses (t.apply c) := by
  cases t with
  | start => exact withStart (Text.exists_trimStart_append c.value)
  | line =>
      rw [Trim.apply, Content.trimLine]
      split
      · exact refl c
      · exact withStart (Text.exists_trimLine_append c.value)
  | finish => exact withEnd (Text.exists_trimEnd_append c.value)
  | padding =>
      rw [Trim.apply, Content.trimPadding]
      split
      · exact refl c
      · exact withEnd (Text.exists_trimPadding_append c.value)

/-- What is not white space stays. -/
theorem filter_value (h : c.Loses d) :
    d.value.filter (fun x => !isSpace x) = c.value.filter (fun x => !isSpace x) := by
  obtain ⟨p, s, hp, hs, hv, -, -⟩ := h.value
  have hpn : p.filter (fun x => !isSpace x) = [] := by
    rw [List.filter_eq_nil_iff]
    intro x hx
    simp [hp x hx]
  have hsn : s.filter (fun x => !isSpace x) = [] := by
    rw [List.filter_eq_nil_iff]
    intro x hx
    simp [hs x hx]
  rw [hv, List.filter_append, List.filter_append, hpn, hsn, List.nil_append, List.append_nil]

end Content.Loses

/-- A sequence of trims takes away white space at the two ends only. -/
theorem Content.TrimsTo.loses {c d : Content} (h : c.TrimsTo d) : c.Loses d := by
  induction h with
  | refl => exact .refl c
  | step t _ ih => exact ih.trans (.apply t _)

end Stache
