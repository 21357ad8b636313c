import Mathlib.Data.List.Forall2
import Stache.Builder.Basic
import Stache.Proofs.Token.Names

/-!
# Segments and their text

The text of a path is put together from its segments, without their brackets.  As long as no
name in brackets could be read in another way without them, the segments can be told from that
text (`likes_of_flatMap_text`), and then so can what the path names.
-/

namespace Stache

/-! ## Names -/

/-- The characters that set off the parts of a path. -/
def Segment.delimiters : Text := ['.', '/', '#', '@', '(', ')']

/-- The text is not empty and holds no delimiter. -/
def Text.IsName (t : Text) : Prop := t ≠ [] ∧ ∀ c ∈ t, c ∉ Segment.delimiters

/-- `..` and `.`. -/
def Text.IsDots (t : Text) : Prop := t = ['.'] ∨ t = ['.', '.']

/-- The segment has no brackets, or the name in them is read the same without them. -/
def Segment.Clear (s : Segment) : Prop :=
  s.written = s.part ∨ s.part.IsName ∧ s.part ≠ ['t', 'h', 'i', 's']

/-- A clear segment of a path, as its text shows it. -/
inductive Segment.Shown (s : Segment) : Prop where
  | dots (h : s.part.IsDots) (hbare : s.written = s.part)
  | name (h : s.part.IsName) (hthis : s.part = ['t', 'h', 'i', 's'] → s.written = s.part)

/-- Segments that count the same in a path. -/
structure Segment.Like (s t : Segment) : Prop where
  part : s.part = t.part
  separator : s.separator = t.separator
  operator : s.isOperator = t.isOperator

theorem not_mem_of_isIdent {c : Char} (h : Reading.isIdent c = true) :
    c ∉ Segment.delimiters := by
  simp only [Reading.isIdent, Bool.not_eq_true', Bool.or_eq_false_iff] at h
  have hsub : Segment.delimiters.all Reading.reserved.contains = true := by decide
  intro hc
  have hreserved := List.all_eq_true.mp hsub c hc
  rw [h.2] at hreserved
  cases hreserved

theorem unbracket_bracketed (name : Text) : unbracket ('[' :: (name ++ [']'])) = name := by
  simp [unbracket, Text.after?, Text.before?]

theorem unbracket_of_isBare {t : Text} (h : t.IsBare) : unbracket t = t := by
  rcases h with rfl | rfl | ⟨hne, hident⟩
  · rfl
  · rfl
  · obtain ⟨c, r, rfl⟩ := List.exists_cons_of_ne_nil hne
    have hc : ('[' == c) = false := by
      refine Bool.eq_false_iff.mpr fun heq => ?_
      obtain rfl := beq_iff_eq.mp heq
      exact absurd (hident '[' List.mem_cons_self) (by decide)
    simp [unbracket, Text.after?, List.isPrefixOf, hc]

/-- Clear segments show in the text of their path. -/
theorem shown_of_clear {written : Text} {separator : Option Separator}
    (hnamed : written.IsBare ∨ written.IsBracketed)
    (hclear : (Segment.ofIdent written separator).Clear) :
    (Segment.ofIdent written separator).Shown := by
  rcases hnamed with hbare | ⟨name, rfl⟩
  · have hpart : (Segment.ofIdent written separator).part = written := unbracket_of_isBare hbare
    rcases hbare with rfl | rfl | ⟨hne, hident⟩
    · exact .dots (.inl rfl) rfl
    · exact .dots (.inr rfl) rfl
    · refine .name ?_ fun _ => hpart.symm
      rw [hpart]
      exact ⟨hne, fun c hc => not_mem_of_isIdent (hident c hc)⟩
  · have hpart := unbracket_bracketed name
    rcases hclear with hwritten | ⟨hname, hthis⟩
    · have hlength := congrArg List.length (hwritten.trans hpart)
      simp [Segment.ofIdent] at hlength
      omega
    · exact .name hname fun heq => absurd heq hthis

theorem Segment.Shown.isDots_or_isName {s : Segment} (h : s.Shown) :
    s.part.IsDots ∨ s.part.IsName := by
  cases h with
  | dots h _ => exact .inl h
  | name h _ => exact .inr h

/-- An operator is told from its part alone. -/
theorem Segment.Shown.isOperator_eq {s : Segment} (h : s.Shown) :
    s.isOperator = (s.part == ['.', '.'] || s.part == ['.'] || s.part == ['t', 'h', 'i', 's']) := by
  rw [isOperator]
  cases h with
  | dots _ hbare => rw [hbare, beq_self_eq_true, Bool.true_and]
  | name hname hthis =>
      by_cases hpart : s.part = ['t', 'h', 'i', 's']
      · rw [hthis hpart, beq_self_eq_true, Bool.true_and]
      · have hdot : '.' ∉ s.part := fun hmem => hname.2 '.' hmem (by decide)
        have hdots : s.part ≠ ['.', '.'] := fun heq => hdot (by simp [heq])
        have hdot' : s.part ≠ ['.'] := fun heq => hdot (by simp [heq])
        simp [hpart, hdots, hdot']

theorem like_of_shown {s t : Segment} (hs : s.Shown) (ht : t.Shown) (hpart : s.part = t.part)
    (hseparator : s.separator = t.separator) : s.Like t :=
  ⟨hpart, hseparator, by rw [hs.isOperator_eq, ht.isOperator_eq, hpart]⟩

/-! ## Texts of segments -/

/-- What may follow a part of a path: nothing, or a separator and what it separates. -/
def Text.Parts (v : Text) : Prop :=
  v = [] ∨ (∃ r, v = '/' :: r) ∨ ∃ c r, v = '.' :: c :: r ∧ c ≠ '.' ∧ c ≠ '/'

theorem Text.Parts.head (h : Text.Parts v) : ∀ c ∈ v.head?, c = '/' ∨ c = '.' := by
  rcases h with rfl | ⟨r, rfl⟩ | ⟨c, r, rfl, -, -⟩
  · nofun
  · exact fun c hc => .inl (Option.some.inj hc).symm
  · exact fun c hc => .inr (Option.some.inj hc).symm

/-- A name ends in front of a separator. -/
theorem name_unique {p q v w : Text} (hp : p.IsName) (hq : q.IsName) (hv : v.Parts) (hw : w.Parts)
    (h : p ++ v = q ++ w) : p = q ∧ v = w := by
  let plain (c : Char) : Bool := !Segment.delimiters.contains c
  have htake {p v : Text} (hp : p.IsName) (hv : v.Parts) : (p ++ v).takeWhile plain = p := by
    have hall : ∀ c ∈ p, plain c = true := fun c hc => by
      simpa [plain] using hp.2 c hc
    have hnil : v.takeWhile plain = [] := by
      cases v with
      | nil => rfl
      | cons c r =>
          rcases hv.head c rfl with rfl | rfl <;> rfl
    rw [List.takeWhile_append_of_pos hall, hnil, List.append_nil]
  obtain rfl : p = q := by rw [← htake hp hv, h, htake hq hw]
  exact ⟨rfl, List.append_cancel_left h⟩

/-- A single dot in front of a part is not the first of two. -/
theorem dots_unique {v w : Text} (hv : v.Parts) (hw : w.Parts) :
    '.' :: v ≠ '.' :: '.' :: w := by
  intro h
  obtain rfl := (List.cons.inj h).2
  rcases hv with hnil | ⟨r, hr⟩ | ⟨c, r, hr, hdot, hslash⟩
  · cases hnil
  · cases hr
  · rcases hw with rfl | ⟨_, rfl⟩ | ⟨_, _, rfl, -, -⟩
    · cases hr
    · exact hslash (List.cons.inj (List.cons.inj hr).2).1.symm
    · exact hdot (List.cons.inj (List.cons.inj hr).2).1.symm

theorem name_ne_dots {p v w : Text} (hp : p.IsName) : p ++ v ≠ '.' :: w := by
  obtain ⟨c, r, rfl⟩ := List.exists_cons_of_ne_nil hp.1
  rintro h
  obtain ⟨rfl, -⟩ := List.cons.inj h
  exact hp.2 '.' List.mem_cons_self (by decide)

/-- A part ends in front of what may follow it. -/
theorem part_unique {p q v w : Text} (hp : p.IsDots ∨ p.IsName) (hq : q.IsDots ∨ q.IsName)
    (hv : v.Parts) (hw : w.Parts) (h : p ++ v = q ++ w) : p = q ∧ v = w := by
  rcases hp with (rfl | rfl) | hp
  · rcases hq with (rfl | rfl) | hq
    · exact ⟨rfl, (List.cons.inj h).2⟩
    · exact absurd h (dots_unique hv hw)
    · exact absurd h.symm (name_ne_dots hq)
  · rcases hq with (rfl | rfl) | hq
    · exact absurd h.symm (dots_unique hw hv)
    · exact ⟨rfl, (List.cons.inj (List.cons.inj h).2).2⟩
    · exact absurd h.symm (name_ne_dots hq)
  · rcases hq with (rfl | rfl) | hq
    · exact absurd h (name_ne_dots hp)
    · exact absurd h (name_ne_dots hp)
    · exact name_unique hp hq hv hw h

/-! ## Lists of segments -/

/-- The segment may stand behind another one: a `.` in front of it is no part of a `..`. -/
def Segment.Behind (s : Segment) : Prop :=
  s.Shown ∧ ∃ kind, s.separator = some kind ∧ (kind = .dot → s.part.IsName)

theorem Segment.Behind.exists_text {s : Segment} (h : s.Behind) (v : Text) :
    (∃ r, s.text ++ v = '/' :: r) ∨ ∃ c r, s.text ++ v = '.' :: c :: r ∧ c ≠ '.' ∧ c ≠ '/' := by
  obtain ⟨-, kind, hkind, hdot⟩ := h
  simp only [text, hkind]
  cases kind with
  | slash => exact .inl ⟨_, rfl⟩
  | member => exact .inr ⟨_, _, rfl, by decide, by decide⟩
  | dot =>
      obtain ⟨hne, hname⟩ := hdot rfl
      obtain ⟨c, r, hpart⟩ := List.exists_cons_of_ne_nil hne
      rw [hpart] at hname ⊢
      have hc := hname c List.mem_cons_self
      exact .inr ⟨c, r ++ v, rfl, fun heq => hc (by simp [heq, delimiters]),
        fun heq => hc (by simp [heq, delimiters])⟩

theorem parts_flatMap_text {segments : List Segment} (h : ∀ s ∈ segments, s.Behind) :
    Text.Parts (segments.flatMap Segment.text) := by
  cases segments with
  | nil => exact .inl rfl
  | cons s segments =>
      rw [List.flatMap_cons]
      exact .inr ((h s List.mem_cons_self).exists_text _)

/-- A separator and a part are told from their text. -/
theorem Segment.Behind.unique {s t : Segment} (hs : s.Behind) (ht : t.Behind) {v w : Text}
    (hv : v.Parts) (hw : w.Parts) (h : s.text ++ v = t.text ++ w) : s.Like t ∧ v = w := by
  obtain ⟨hs, kind, hkind, hdot⟩ := hs
  obtain ⟨ht, kind', hkind', hdot'⟩ := ht
  have hpart (heq : s.part ++ v = t.part ++ w) (hsep : kind = kind') : s.Like t ∧ v = w := by
    obtain ⟨hpart, hvw⟩ := part_unique hs.isDots_or_isName ht.isDots_or_isName hv hw heq
    exact ⟨like_of_shown hs ht hpart (by rw [hkind, hkind', hsep]), hvw⟩
  have hhash {p r r' : Text} (hp : p.IsName) : p ++ r ≠ '#' :: r' := by
    obtain ⟨c, p, rfl⟩ := List.exists_cons_of_ne_nil hp.1
    intro heq
    obtain ⟨rfl, -⟩ := List.cons.inj heq
    exact hp.2 '#' List.mem_cons_self (by decide)
  simp only [text, hkind, hkind', List.append_assoc] at h
  cases kind with
  | dot =>
      cases kind' with
      | dot => exact hpart (List.cons.inj h).2 rfl
      | slash => exact nomatch h
      | member =>
          have heq : s.part ++ v = '#' :: (t.part ++ w) := (List.cons.inj h).2
          exact absurd heq (hhash (hdot rfl))
  | slash =>
      cases kind' with
      | slash => exact hpart (List.cons.inj h).2 rfl
      | dot | member => exact nomatch h
  | member =>
      cases kind' with
      | dot =>
          have heq : '#' :: (s.part ++ v) = t.part ++ w := (List.cons.inj h).2
          exact absurd heq.symm (hhash (hdot' rfl))
      | slash => exact nomatch h
      | member => exact hpart (List.cons.inj (List.cons.inj h).2).2 rfl

theorem Segment.Behind.text_ne_nil {s : Segment} (h : s.Behind) (v : Text) : s.text ++ v ≠ [] := by
  rcases h.exists_text v with ⟨r, hr⟩ | ⟨c, r, hr, -, -⟩ <;> rw [hr] <;> nofun

/-- Segments behind the first one are told from their text. -/
theorem likes_of_flatMap_text {l l' : List Segment} (h : ∀ s ∈ l, s.Behind)
    (h' : ∀ s ∈ l', s.Behind) (htext : l.flatMap Segment.text = l'.flatMap Segment.text) :
    List.Forall₂ Segment.Like l l' := by
  induction l generalizing l' with
  | nil =>
      cases l' with
      | nil => exact .nil
      | cons t l' => exact absurd htext.symm ((h' t List.mem_cons_self).text_ne_nil _)
  | cons s l ih =>
      obtain ⟨hs, hl⟩ := List.forall_mem_cons.mp h
      cases l' with
      | nil => exact absurd htext (hs.text_ne_nil _)
      | cons t l' =>
          obtain ⟨ht, hl'⟩ := List.forall_mem_cons.mp h'
          rw [List.flatMap_cons, List.flatMap_cons] at htext
          obtain ⟨hlike, hrest⟩ :=
            hs.unique ht (parts_flatMap_text hl) (parts_flatMap_text hl') htext
          exact .cons hlike (ih hl hl' hrest)

/-- The segments of a path: the first has nothing in front of it. -/
def Segment.Row : List Segment → Prop
  | [] => False
  | s :: more => s.Shown ∧ s.separator = none ∧ ∀ t ∈ more, t.Behind

/-- The segments of a path are told from their text. -/
theorem Segment.Row.unique {l l' : List Segment} (h : Row l) (h' : Row l')
    (htext : l.flatMap Segment.text = l'.flatMap Segment.text) : List.Forall₂ Like l l' := by
  cases l with
  | nil => exact h.elim
  | cons s l =>
      cases l' with
      | nil => exact h'.elim
      | cons t l' =>
          obtain ⟨hs, hsep, hl⟩ := h
          obtain ⟨ht, hsep', hl'⟩ := h'
          simp only [List.flatMap_cons, text, hsep, hsep', Option.map_none, Option.getD_none,
            List.nil_append] at htext
          obtain ⟨hpart, hrest⟩ := part_unique hs.isDots_or_isName ht.isDots_or_isName
            (parts_flatMap_text hl) (parts_flatMap_text hl') htext
          exact .cons (like_of_shown hs ht hpart (hsep.trans hsep'.symm))
            (likes_of_flatMap_text hl hl' hrest)

/-- The text of segments starts neither as data does nor as a call does. -/
theorem Segment.Row.exists_text {l : List Segment} (h : Row l) :
    ∃ c r, l.flatMap Segment.text = c :: r ∧ c ≠ '@' ∧ c ≠ '(' := by
  cases l with
  | nil => exact h.elim
  | cons s l =>
      obtain ⟨hs, hsep, -⟩ := h
      rw [List.flatMap_cons, text, hsep]
      rcases hs.isDots_or_isName with (hpart | hpart) | ⟨hne, hname⟩
      · exact ⟨'.', l.flatMap Segment.text, by rw [hpart]; rfl, by decide, by decide⟩
      · exact ⟨'.', '.' :: l.flatMap Segment.text, by rw [hpart]; rfl, by decide, by decide⟩
      · obtain ⟨c, r, hpart⟩ := List.exists_cons_of_ne_nil hne
        have hc := hname c (by rw [hpart]; exact List.mem_cons_self)
        exact ⟨c, r ++ l.flatMap Segment.text, by rw [hpart]; rfl,
          fun heq => hc (by simp [heq, delimiters]), fun heq => hc (by simp [heq, delimiters])⟩

theorem Segment.Shown.not_mem {s : Segment} (h : s.Shown) : ')' ∉ s.text := by
  have hsep : ')' ∉ (s.separator.map Separator.text).getD [] := by
    rcases s.separator with _ | kind
    · exact List.not_mem_nil
    · cases kind <;> decide
  have hpart : ')' ∉ s.part := by
    rcases h.isDots_or_isName with (hpart | hpart) | hname
    · rw [hpart]; decide
    · rw [hpart]; decide
    · exact fun hmem => hname.2 ')' hmem (by decide)
  exact fun hmem => (List.mem_append.mp hmem).elim hsep hpart

/-- The text of segments ends no call. -/
theorem Segment.Row.not_mem {l : List Segment} (h : Row l) : ')' ∉ l.flatMap Segment.text := by
  cases l with
  | nil => exact h.elim
  | cons s l =>
      obtain ⟨hs, -, hl⟩ := h
      intro hmem
      rw [List.flatMap_cons] at hmem
      rcases List.mem_append.mp hmem with hmem | hmem
      · exact hs.not_mem hmem
      · obtain ⟨t, ht, hmem⟩ := List.mem_flatMap.mp hmem
        exact (hl t ht).1.not_mem hmem

end Stache
