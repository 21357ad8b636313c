import Stache.Proofs.Grammar.RawBlocks
import Stache.Proofs.Token.Faults

/-!
# Raw blocks without an end

A raw block has no end if no closer is left for it behind its opening tag.  `HasRawCloser` says of
the text there that it has one, and `RawNest` which raw blocks may stand in front of it.  The
scanner finds a closer in just these texts (`rawBody?_eq_none_iff`).

Where the scanner stops for want of a closer, it has come from the `}}}}` in front of the text,
which is the last of its tokens, and remembers the last opener among them
(`exists_of_unterminatedRawBlock`).
-/

namespace Stache

/-! ## Texts with a closer -/

/-- The text `w`, in front of `after`, closes the raw blocks that it opens and no others.  Four
braces open one, whatever follows them but a slash.  With a slash they are a closer or nothing. -/
inductive RawNest : Text → Text → Prop where
  | nil {after : Text} : RawNest [] after
  | char {c : Char} {w after : Text} (hc : ¬['{', '{', '{', '{'] <+: c :: (w ++ after))
      (h : RawNest w after) : RawNest (c :: w) after
  | slash {w after : Text} (hslash : (w ++ after).head? = some '/')
      (hcloser : ∀ name rest, name.IsRun →
        ['{', '{', '{', '{'] ++ (w ++ after) ≠ rawClosing name ++ rest)
      (h : RawNest w after) : RawNest (['{', '{', '{', '{'] ++ w) after
  | block {inner name w after : Text} (hname : name.IsRun)
      (hslash : (inner ++ (rawClosing name ++ (w ++ after))).head? ≠ some '/')
      (hinner : RawNest inner (rawClosing name ++ (w ++ after))) (h : RawNest w after) :
      RawNest (['{', '{', '{', '{'] ++ (inner ++ (rawClosing name ++ w))) after

/-- The text has closers for the raw blocks that it stands in, `depth` of them inside another. -/
def HasRawClosers (depth : Nat) (t : Text) : Prop :=
  ∃ w name after, t = w ++ (rawClosing name ++ after) ∧ name.IsRun ∧
    RawNest w (rawClosing name ++ after) ∧
      match depth with
      | 0 => True
      | depth + 1 => HasRawClosers depth after
termination_by structural depth

/-- The text has a closer for the raw block that it stands in. -/
def HasRawCloser (t : Text) : Prop :=
  ∃ w name after, t = w ++ (rawClosing name ++ after) ∧ name.IsRun ∧
    RawNest w (rawClosing name ++ after)

theorem hasRawClosers_zero {t : Text} : HasRawClosers 0 t ↔ HasRawCloser t :=
  ⟨fun ⟨w, name, after, ht, hname, h, _⟩ => ⟨w, name, after, ht, hname, h⟩,
    fun ⟨w, name, after, ht, hname, h⟩ => ⟨w, name, after, ht, hname, h, trivial⟩⟩

namespace Scanner

variable {square : Bool} {s s' : State} {cs rest t w after name : Text} {ls : List Lexeme}
  {f : Fault} {depth : Nat}

theorem rawCloseName?_eq_some : rawCloseName? t = some name ↔ name.IsRun ∧ rawClosing name <+: t :=
  rawCloseName?_eq_some_iff.trans
    ⟨fun ⟨hne, hident, h⟩ =>
      ⟨⟨List.isEmpty_eq_false_iff.mp hne, List.all_eq_true.mp hident⟩, h⟩,
      fun ⟨hname, h⟩ =>
        ⟨List.isEmpty_eq_false_iff.mpr hname.ne_nil, List.all_eq_true.mpr hname.ident, h⟩⟩

theorem rawCloseName?_eq_none_iff :
    rawCloseName? t = none ↔ ∀ name rest, name.IsRun → t ≠ rawClosing name ++ rest := by
  constructor
  · rintro hnone name rest hname rfl
    rw [rawCloseName?_rawClosing hname] at hnone
    cases hnone
  · intro h
    cases hname : rawCloseName? t with
    | none => rfl
    | some name =>
        obtain ⟨hrun, rest, ht⟩ := rawCloseName?_eq_some.mp hname
        exact absurd ht.symm (h name rest hrun)

/-- The search goes over raw blocks that are closed. -/
theorem isSome_rawBody?_append (h : RawNest w after) :
    (rawBody? depth (w ++ after)).isSome = (rawBody? depth after).isSome := by
  induction h generalizing depth with
  | nil => rfl
  | char hc _ ih =>
      rw [List.cons_append, rawBody?_of_text hc, Option.isSome_map, ih]
  | slash hslash hcloser _ ih =>
      rw [List.append_assoc, rawBody?_braces (rawCloseName?_eq_none_iff.mpr hcloser),
        if_pos hslash, Option.isSome_map, ih]
  | @block inner name w after hname hslash _ _ ih ih' =>
      have hnone : rawCloseName? (['{', '{', '{', '{'] ++
          (inner ++ (rawClosing name ++ (w ++ after)))) = none := by
        refine rawCloseName?_eq_none_iff.mpr fun name' rest _ heq => hslash ?_
        exact congrArg (fun t : Text => (t.drop 4).head?) heq
      rw [List.append_assoc, List.append_assoc, List.append_assoc, rawBody?_braces hnone,
        if_neg hslash, Option.isSome_map, ih, walks_rawClosing hname, Option.isSome_map, ih']

theorem isSome_rawBody?_of_hasRawClosers (h : HasRawClosers depth t) :
    (rawBody? depth t).isSome = true := by
  induction depth generalizing t with
  | zero =>
      obtain ⟨w, name, after, rfl, hname, hw, -⟩ := h
      rw [isSome_rawBody?_append hw, rawBody?_rawClosing_append hname]
      rfl
  | succ depth ih =>
      obtain ⟨w, name, after, rfl, hname, hw, hafter⟩ := h
      rw [isSome_rawBody?_append hw, walks_rawClosing hname, Option.isSome_map]
      exact ih hafter

end Scanner

namespace HasRawClosers

variable {t name : Text} {c : Char} {depth : Nat}

theorem closer (hname : name.IsRun) (h : HasRawClosers depth t) :
    HasRawClosers (depth + 1) (rawClosing name ++ t) :=
  ⟨[], name, t, rfl, hname, .nil, h⟩

theorem char (hc : ¬['{', '{', '{', '{'] <+: c :: t) (h : HasRawClosers depth t) :
    HasRawClosers depth (c :: t) := by
  cases depth <;>
  · obtain ⟨w, name, after, rfl, hname, hw, hafter⟩ := h
    exact ⟨c :: w, name, after, rfl, hname, .char hc hw, hafter⟩

/-- Braces that are no closer are gone over. -/
theorem slash (hslash : t.head? = some '/')
    (hcloser : ∀ name rest, name.IsRun → ['{', '{', '{', '{'] ++ t ≠ rawClosing name ++ rest)
    (h : HasRawClosers depth t) : HasRawClosers depth (['{', '{', '{', '{'] ++ t) := by
  cases depth <;>
  · obtain ⟨w, name, after, rfl, hname, hw, hafter⟩ := h
    exact ⟨['{', '{', '{', '{'] ++ w, name, after, (List.append_assoc _ _ _).symm, hname,
      .slash hslash hcloser hw, hafter⟩

/-- The first of the closers behind an opener is its own. -/
theorem block (hslash : t.head? ≠ some '/') (h : HasRawClosers (depth + 1) t) :
    HasRawClosers depth (['{', '{', '{', '{'] ++ t) := by
  obtain ⟨inner, name, rest, rfl, hname, hinner, hrest⟩ := h
  cases depth <;>
  · obtain ⟨w, name', after, rfl, hname', hw, hafter⟩ := hrest
    refine ⟨['{', '{', '{', '{'] ++ (inner ++ (rawClosing name ++ w)), name', after, ?_, hname',
      .block hname hslash hinner hw, hafter⟩
    simp only [List.append_assoc]

end HasRawClosers

namespace Scanner

variable {square : Bool} {s s' : State} {cs rest t : Text} {ls : List Lexeme} {f : Fault}
  {depth : Nat}

theorem hasRawClosers_of_isSome (h : (rawBody? depth t).isSome = true) :
    HasRawClosers depth t := by
  have hbraces {c : Char} {r : Text} (hopen : ['{', '{', '{', '{'].isPrefixOf (c :: r) = true) :
      c :: r = ['{', '{', '{', '{'] ++ (c :: r).drop 4 :=
    (List.prefix_iff_eq_append.mp (List.isPrefixOf_iff_prefix.mp hopen)).symm
  fun_induction rawBody? depth t with
  | case1 => cases h
  | case2 c r hopen name hname =>
      obtain ⟨hrun, after, ht⟩ := rawCloseName?_eq_some.mp hname
      exact ⟨[], name, after, ht.symm, hrun, .nil, trivial⟩
  | case3 c r hopen name depth hname ih =>
      obtain ⟨hrun, after, ht⟩ := rawCloseName?_eq_some.mp hname
      have hwidth : rawCloseWidth name = (rawClosing name).length := by
        simp [rawCloseWidth, rawClosing]
      rw [Option.isSome_map] at h
      have hafter := ih h
      rw [← ht, hwidth, List.drop_left] at hafter
      exact ht ▸ .closer hrun hafter
  | case4 c r hopen depth hnone depth' =>
      next ih =>
      rw [Option.isSome_map] at h
      have hrest := ih h
      rw [hbraces hopen] at hnone ⊢
      by_cases hslash : ((c :: r).drop 4).head? = some '/'
      · rw [show depth' = depth from if_pos hslash] at hrest
        exact .slash hslash (rawCloseName?_eq_none_iff.mp hnone) hrest
      · rw [show depth' = depth + 1 from if_neg hslash] at hrest
        exact .block hslash hrest
  | case5 depth c r hopen ih =>
      rw [Option.isSome_map] at h
      exact .char (mt List.isPrefixOf_iff_prefix.mpr hopen) (ih h)

/-- **The search for a closer finds one if the text has one.** -/
theorem rawBody?_eq_none_iff : rawBody? 0 t = none ↔ ¬HasRawCloser t := by
  rw [← Option.not_isSome_iff_eq_none, ← hasRawClosers_zero]
  exact not_congr ⟨hasRawClosers_of_isSome, isSome_rawBody?_of_hasRawClosers⟩

/-- The closer of a raw block in the text is none for the one around it. -/
example : ¬HasRawCloser (['a'] ++ (rawOpening ['b'] ++ rawClosing ['b'])) :=
  rawBody?_eq_none_iff.mp (by cbv)

/-! ## Where the scanner stops -/

/-- The offset of the last opener of a raw block among the tokens, or `start` if there is none. -/
def lastOpener (start : Nat) (ls : List Lexeme) : Nat :=
  ls.foldl (fun start l => if l.token = .rawOpener then l.span.start else start) start

theorem lastOpener_append (start : Nat) (ls ls' : List Lexeme) :
    lastOpener start (ls ++ ls') = lastOpener (lastOpener start ls) ls' := List.foldl_append

theorem lastOpener_of_forall {ls : List Lexeme} (h : ∀ l ∈ ls, l.token ≠ .rawOpener)
    (start : Nat) : lastOpener start ls = start := by
  induction ls with
  | nil => rfl
  | cons l ls ih =>
      obtain ⟨hl, hls⟩ := List.forall_mem_cons.mp h
      rw [lastOpener, List.foldl_cons, if_neg hl]
      exact ih hls

/-- The scanner remembers the last opener it has read. -/
theorem rawStart_eq_lastOpener (h : step square s cs = .moved ls s' rest) :
    s'.rawStart = lastOpener s.rawStart ls := by
  rw [step] at h
  split at h
  · have hls := forall_textStep (fun t => t ≠ .rawOpener) (fun _ _ => Token.noConfusion) h
    rw [rawStart_textStep h, lastOpener_of_forall hls]
  · obtain ⟨token, width, -, -, rfl, rfl, -⟩ := tagStep_eq_moved_iff.mp h
    rfl
  · obtain ⟨width, name, -, rfl, rfl, -⟩ := rawStep_eq_moved_iff.mp h
    have hbody :=
      forall_contentLexeme (fun t => t ≠ .rawOpener) (fun _ _ => Token.noConfusion) (cs.take width)
    rw [lastOpener_append, lastOpener_of_forall (hbody _ _)]
    rfl

/-- Only a `}}}}` starts the body of a raw block. -/
theorem exists_rawCloser_of_step (h : step square s cs = .moved ls s' rest)
    (hraw : s'.mode = .raw) :
    ∃ front x, ls = front ++ [x] ∧ x.token = .rawCloser ∧ x.span.stop = s'.offset := by
  rw [step] at h
  cases hmode : s.mode with
  | text =>
      rw [hmode] at h
      cases textStep_eq_moved_iff.mp h with
      | last | escaped => cases hmode.symm.trans hraw
      | tag | doubled => cases hraw
  | tag =>
      rw [hmode] at h
      obtain ⟨token, width, -, -, rfl, rfl, -⟩ := tagStep_eq_moved_iff.mp h
      refine ⟨[], _, rfl, ?_, rfl⟩
      cases token <;> first | rfl | cases hraw
  | raw =>
      rw [hmode] at h
      obtain ⟨width, name, -, -, rfl, -⟩ := rawStep_eq_moved_iff.mp h
      cases hraw

/-- A raw block has no end where the scanner looks for it and finds no closer. -/
theorem of_failed_rawBlock (h : step square s cs = .failed f)
    (hf : f.kind = .unterminatedRawBlock) : s.mode = .raw ∧ ¬HasRawCloser cs ∧
      f.span = ⟨s.rawStart, s.offset + cs.byteLength⟩ := by
  rw [step] at h
  split at h
  · exact absurd h textStep_ne_failed
  · rw [tagStep] at h
    dsimp only at h
    split at h
    · cases h
    · split at h <;> cases h <;> cases hf
  · next hmode =>
      rw [rawStep] at h
      split at h <;> cases h
      next hbody => exact ⟨hmode, rawBody?_eq_none_iff.mp hbody, rfl⟩

/-- **The scanner stops behind a `}}}}`** for want of a closer, and the fault is at the last opener.
The first alternative is that the scanner starts there, in the body of a raw block. -/
theorem exists_of_unterminatedRawBlock (square : Bool) (s : State) (cs : Text)
    (h : (scan square s cs).fault = some f) (hf : f.kind = .unterminatedRawBlock) :
    f.span = ⟨lastOpener s.rawStart (scan square s cs).lexemes, s.offset + cs.byteLength⟩ ∧
      ∃ u body, cs = u ++ body ∧ ¬HasRawCloser body ∧
        ((scan square s cs).lexemes = [] ∧ s.mode = .raw ∧ u = [] ∨
          ∃ front x, (scan square s cs).lexemes = front ++ [x] ∧ x.token = .rawCloser ∧
            x.span.stop = s.offset + u.byteLength) := by
  cases hstep : step square s cs with
  | finished =>
      rw [scan_of_finished hstep] at h
      cases h
  | failed fault =>
      rw [scan_of_failed hstep] at h ⊢
      cases h
      obtain ⟨hmode, hbody, hspan⟩ := of_failed_rawBlock hstep hf
      exact ⟨hspan, [], cs, rfl, hbody, .inl ⟨rfl, hmode, rfl⟩⟩
  | moved ls s' rest =>
      rw [scan_of_step hstep] at h ⊢
      obtain ⟨hspan, u, body, rfl, hbody, hlast⟩ :=
        exists_of_unterminatedRawBlock square s' rest h hf
      obtain ⟨w, rfl, hoffset⟩ := exists_of_step hstep
      refine ⟨?_, w ++ u, body, (List.append_assoc w u body).symm, hbody, .inr ?_⟩
      · show f.span = ⟨lastOpener s.rawStart (ls ++ _), _⟩
        rw [hspan, lastOpener_append, ← rawStart_eq_lastOpener hstep, hoffset,
          Text.byteLength_append w, Nat.add_assoc]
      · show ∃ front x, ls ++ _ = front ++ [x] ∧ _
        rcases hlast with ⟨hnil, hraw, rfl⟩ | ⟨front, x, hls, hx, hstop⟩
        · obtain ⟨front, x, rfl, hx, hstop⟩ := exists_rawCloser_of_step hstep hraw
          rw [hnil, List.append_nil, List.append_nil]
          exact ⟨front, x, rfl, hx, hstop.trans hoffset⟩
        · refine ⟨ls ++ front, x, by rw [hls, List.append_assoc], hx, ?_⟩
          rw [hstop, hoffset, Text.byteLength_append, Nat.add_assoc]
termination_by measure s cs
decreasing_by exact step_measure ‹_›

end Scanner
end Stache
