import Stache.Proofs.Grammar.ReadBack
import Stache.Proofs.Token.Partial

/-!
# Raw blocks are kept as they are

The body of a raw block is text, whatever tags are in it, up to the closer of the block.  Raw blocks
may stand in it, and their closers close them.  The names in these play no part.

`RawBody` is the grammar of such bodies.  The scanner counts the raw blocks that are open, so behind
a body the count is what it was in front of it (`walks_of_rawBody`) and the closer that follows
is that of the block (`readsRaw_rawTemplate`).
-/

namespace Stache

/-! ## Raw blocks as they are written -/

/-- A run of identifier characters. -/
structure Text.IsRun (name : Text) : Prop where
  ne_nil : name ≠ []
  ident : ∀ c ∈ name, Reading.isIdent c = true

instance (name : Text) : Decidable name.IsRun :=
  decidable_of_iff (name ≠ [] ∧ name.all Reading.isIdent = true)
    ⟨fun ⟨hne, hident⟩ => ⟨hne, List.all_eq_true.mp hident⟩,
      fun h => ⟨h.ne_nil, List.all_eq_true.mpr h.ident⟩⟩

theorem Text.IsWord.isRun {name : Text} (h : name.IsWord) : name.IsRun := ⟨h.ne_nil, h.ident⟩

/-- The opening tag of a raw block. -/
def rawOpening (name : Text) : Text := ['{', '{', '{', '{'] ++ (name ++ ['}', '}', '}', '}'])

/-- The closing tag of a raw block. -/
def rawClosing (name : Text) : Text := ['{', '{', '{', '{', '/'] ++ (name ++ ['}', '}', '}', '}'])

/-- A raw block. -/
def rawTemplate (name body : Text) : Text := rawOpening name ++ (body ++ rawClosing name)

/-- What may stand in a raw block: text without opening braces, and raw blocks, of any names. -/
inductive RawBody : Text → Prop where
  | nil : RawBody []
  | char {c : Char} {body : Text} (hc : c ≠ '{') (h : RawBody body) : RawBody (c :: body)
  | block {name name' body body' : Text} (hname : name.IsRun) (hname' : name'.IsRun)
      (h : RawBody body) (h' : RawBody body') :
      RawBody (rawOpening name ++ (body ++ (rawClosing name' ++ body')))

variable {square : Bool} {name body : Text}

/-! ## The search for the closer -/

namespace Scanner

/-- The search for the closer of a raw block goes over the text `w`.  The number of raw blocks that
are open is `depth` in front of it and `depth'` behind it. -/
def Walks (depth depth' : Nat) (w : Text) : Prop :=
  ∀ rest, rawBody? depth (w ++ rest) =
    (rawBody? depth' rest).map fun found => (found.1 + w.length, found.2)

variable {depth depth' depth'' : Nat} {w w' r : Text} {c : Char}

theorem Walks.nil : Walks depth depth [] := fun _ => (Option.map_id' ..).symm

theorem Walks.append (h : Walks depth depth' w) (h' : Walks depth' depth'' w') :
    Walks depth depth'' (w ++ w') := by
  intro rest
  rw [List.append_assoc, h, h', Option.map_map, List.length_append]
  refine congrArg (Option.map · _) (funext fun found => ?_)
  exact Prod.ext (by show found.1 + w'.length + w.length = _; omega) rfl

/-- A character that starts no braces is gone over. -/
theorem Walks.char (hc : c ≠ '{') : Walks depth depth [c] := by
  intro rest
  exact rawBody?_of_text (fun h => hc (List.cons_prefix_cons.mp h).1.symm) depth

/-- Text without opening braces opens and closes nothing. -/
theorem walks_of_not_mem (h : '{' ∉ w) : Walks depth depth w := by
  induction w with
  | nil => exact .nil
  | cons c w ih =>
      obtain ⟨hc, hw⟩ := not_or.mp (mt List.mem_cons.mpr h)
      exact (Walks.char (Ne.symm hc)).append (ih hw)

theorem rawCloseName?_rawClosing (h : name.IsRun) (rest : Text) :
    rawCloseName? (rawClosing name ++ rest) = some name :=
  rawCloseName?_of_closer (List.isEmpty_eq_false_iff.mpr h.ne_nil) (List.all_eq_true.mpr h.ident)
    rest

/-- Four braces that are no closer open one more, unless a slash stands behind them. -/
theorem rawBody?_braces (hnone : rawCloseName? (['{', '{', '{', '{'] ++ r) = none) :
    rawBody? depth (['{', '{', '{', '{'] ++ r) =
      (rawBody? (if r.head? = some '/' then depth else depth + 1) r).map
        fun found => (found.1 + 4, found.2) :=
  rawBody?_of_braces (List.prefix_append _ _) hnone depth

/-- Braces with no slash behind them open one more. -/
theorem walks_braces (hc : c ≠ '/') (hr : '{' ∉ c :: r) :
    Walks depth (depth + 1) (['{', '{', '{', '{'] ++ c :: r) := by
  intro rest
  have hname : rawCloseName? (['{', '{', '{', '{'] ++ (c :: r ++ rest)) = none := by
    rw [rawCloseName?, if_neg]
    simp [hc.symm]
  have hslash : (c :: r ++ rest).head? ≠ some '/' := fun heq => hc (Option.some.inj heq)
  rw [List.append_assoc, rawBody?_braces hname, if_neg hslash, walks_of_not_mem hr rest,
    Option.map_map]
  rfl

theorem not_mem_of_isRun (h : name.IsRun) : '{' ∉ name ++ ['}', '}', '}', '}'] := by
  intro hmem
  rcases List.mem_append.mp hmem with hmem | hmem
  · exact Reading.not_reserved (h.ident _ hmem) (by decide)
  · exact absurd hmem (by decide)

/-- An opening tag opens one more. -/
theorem walks_rawOpening (h : name.IsRun) : Walks depth (depth + 1) (rawOpening name) := by
  have hnone := not_mem_of_isRun h
  obtain ⟨c, r, rfl⟩ := List.exists_cons_of_ne_nil h.ne_nil
  exact walks_braces (Reading.ne_of_isIdent (h.ident c List.mem_cons_self) (by decide)) hnone

/-- A closing tag closes one of the raw blocks that are open, or the one around the text. -/
theorem rawBody?_rawClosing_append (h : name.IsRun) (depth : Nat) (rest : Text) :
    rawBody? depth (rawClosing name ++ rest) =
      match depth with
      | 0 => some (0, name)
      | depth + 1 => (rawBody? depth rest).map fun found =>
          (found.1 + (rawClosing name).length, found.2) := by
  have hwidth : rawCloseWidth name = (rawClosing name).length := by
    simp [rawCloseWidth, rawClosing]
  rw [rawBody?_of_closer (rawCloseName?_rawClosing h rest)]
  cases depth with
  | zero => rfl
  | succ depth =>
      dsimp only
      rw [hwidth, List.drop_left]

theorem walks_rawClosing (h : name.IsRun) : Walks (depth + 1) depth (rawClosing name) :=
  fun rest => rawBody?_rawClosing_append h (depth + 1) rest

/-- **A body leaves as many raw blocks open as there were.** -/
theorem walks_of_rawBody (h : RawBody body) : Walks depth depth body := by
  induction h generalizing depth with
  | nil => exact .nil
  | char hc _ ih => exact (Walks.char hc).append ih
  | block hname hname' _ _ ih ih' =>
      exact (walks_rawOpening hname).append (ih.append ((walks_rawClosing hname').append ih'))

/-- The closer behind a body is the one that is found. -/
theorem rawBody?_rawClosing (hname : name.IsRun) (h : RawBody body) :
    rawBody? 0 (body ++ rawClosing name) = some (body.length, name) := by
  have hcloser := rawBody?_rawClosing_append hname 0 []
  rw [List.append_nil] at hcloser
  rw [walks_of_rawBody h, hcloser, Option.map_some]
  exact congrArg some (Prod.ext (Nat.zero_add _) rfl)

end Scanner

/-! ## The tokens of a raw block -/

/-- The tokens of a raw block. -/
def rawTokens (name body : Text) : List Token :=
  .rawOpener :: .ident name :: .rawCloser ::
    ((if body = [] then [] else [.content body]) ++ [.rawEnd name])

theorem Scanner.map_token_contentLexeme (t : Text) (start stop : Nat) :
    (contentLexeme t start stop).map Lexeme.token = if t = [] then [] else [.content t] := by
  rw [contentLexeme]
  cases t <;> rfl

/-- The body of a raw block is one token, unless it is empty. -/
theorem Scanner.scan_rawBody {s : State} (hs : s.mode = .raw) (hname : name.IsRun)
    (h : RawBody body) : ∃ ls, scan square s (body ++ rawClosing name) = ⟨ls, none⟩ ∧
      ls.map Lexeme.token = (if body = [] then [] else [.content body]) ++ [.rawEnd name] := by
  have hstep := (rawStep_eq_moved_iff (s := s)).mpr
    ⟨body.length, name, rawBody?_rawClosing hname h, rfl, rfl, rfl⟩
  have hrest : (body ++ rawClosing name).drop (body.length + rawCloseWidth name) = [] := by
    rw [List.drop_eq_nil_iff, List.length_append]
    simp [rawCloseWidth, rawClosing]
  rw [hrest, List.take_left] at hstep
  rw [scan_of_step ((step_of_raw hs).trans hstep), scan_nil fun h => by cases h]
  refine ⟨_, rfl, ?_⟩
  rw [List.append_nil, List.map_append, map_token_contentLexeme]
  rfl

theorem tokenize_rawTemplate (square : Bool) (hname : name.IsWord) (h : RawBody body) :
    ∃ ls, tokenize square (rawTemplate name body) = ⟨ls, none⟩ ∧
      ls.map Lexeme.token = rawTokens name body := by
  have hstart : Scanner.step square .initial (rawTemplate name body) =
      .moved [] { Scanner.State.initial with mode := .tag } (rawTemplate name body) := rfl
  have hopener : Scanner.Takes square
      (name ++ '}' :: '}' :: '}' :: '}' :: (body ++ rawClosing name)) ['{', '{', '{', '{']
      [.rawOpener] := Scanner.takes_token rfl (fun _ => rfl) rfl
  have hword : Scanner.Takes square ('}' :: '}' :: '}' :: '}' :: (body ++ rawClosing name)) name
      [.ident name] := Scanner.takes_word hname ⟨'}', _, rfl, by decide⟩
  obtain ⟨ls, s, hscan, hs, hls⟩ :=
    hopener.append hword (s := { Scanner.State.initial with mode := .tag }) rfl
  have hread : Reading.readToken square s.afterSeparator
      ('}' :: '}' :: '}' :: '}' :: (body ++ rawClosing name)) = some (.token .rawCloser 4) := rfl
  obtain ⟨span, s', hstep, hs'⟩ := Scanner.exists_step_token hs rfl hread
  have hrest : ('}' :: '}' :: '}' :: '}' :: (body ++ rawClosing name)).drop 4 =
      body ++ rawClosing name := rfl
  obtain ⟨ls', hbody, hls'⟩ := Scanner.scan_rawBody hs' hname.isRun h
  rw [tokenize, Scanner.scan_of_step hstart]
  refine ⟨ls ++ (⟨.rawCloser, span⟩ :: ls'), ?_, ?_⟩
  · have hall : rawTemplate name body = ['{', '{', '{', '{'] ++ name ++
        '}' :: '}' :: '}' :: '}' :: (body ++ rawClosing name) := by
      simp [rawTemplate, rawOpening]
    rw [hall, hscan, Scanner.scan_of_step hstep, hrest, hbody]
    rfl
  · rw [List.map_append, hls, List.map_cons, hls']
    rfl

/-! ## The block -/

/-- The template is one block that calls the name and nothing else, with the body as its text. -/
def ReadsRaw (name body : Text) (result : Except ParseFailure Program) : Prop :=
  ∃ tree node path program, result = .ok tree ∧ tree.body = [.block node] ∧
    node.call = ⟨.path path, [], none⟩ ∧ path.written = name ∧ node.program = some program ∧
    node.inverse = none ∧ (body = [] → program.body = []) ∧
    (body ≠ [] → ∃ c, program.body = [.content c] ∧ c.value = body)

/-- A raw block that closes with its own name is built. -/
theorem Builder.exists_rawBlock (b : Builder) {path : Path} (hname : path.written = name)
    (params : List Expr) (hash : Option Hash) (body : List Statement) (x : Extent) :
    ∃ node program, b.rawBlock ⟨.path path, params, hash⟩ body name x = .ok (.block node) ∧
      node.call = ⟨.path path, params, hash⟩ ∧ node.program = some program ∧
      node.inverse = none ∧ program.body = body := by
  have hclose : checkClose (.path path) (some name) none = .ok () := if_pos hname
  rw [rawBlock, hclose]
  exact ⟨_, _, rfl, rfl, rfl, rfl, rfl⟩

namespace Grammar

variable {ls : List Lexeme}

/-- A word is a path, whose text it is. -/
theorem exists_path_word (g : Grammar) (h : name.IsWord) (s : Span) :
    ∃ p : Path, g.WritesExpr [⟨.ident name, s⟩] (.path p) ∧ p.written = name := by
  obtain ⟨segment, hvalid, rfl, hpart⟩ :
      ∃ segment : SegmentText, segment.Valid ∧ segment.written = name ∧ segment.part = name := by
    by_cases hthis : name = ['t', 'h', 'i', 's']
    · exact ⟨.this, trivial, hthis.symm, hthis.symm⟩
    · exact ⟨.word name, ⟨h, hthis⟩, rfl, rfl⟩
  have hpieces : ∀ x ∈ [(⟨none, segment⟩ : PathPiece)], x.segment.Valid :=
    List.forall_mem_singleton.mpr hvalid
  have hfold := PathPiece.foldlM_toSegment (q := ⟨Builder.pathStart false none, [], 0⟩) hpieces
    (List.pairwise_singleton _ _) fun hne => absurd rfl hne
  obtain ⟨p, hpath, -, -, -, hwritten⟩ :=
    Builder.path_eq_ok (b := g.builder) (x := g.extentOf [⟨.ident segment.written, s⟩]) hfold
  refine ⟨p, .path (.mk .nil) hpath, hwritten.trans ?_⟩
  show [] ++ ([] ++ segment.part ++ []) = _
  rw [hpart]
  simp

/-- The text of a raw block is written as it is, unless it is empty. -/
theorem exists_contents (g : Grammar)
    (h : tokensOf ls = if body = [] then [] else [.content body]) :
    ∃ statements, g.WritesContents ls statements ∧ (body = [] → statements = []) ∧
      (body ≠ [] → ∃ c, statements = [.content c] ∧ c.value = body) := by
  by_cases hbody : body = []
  · rw [if_pos hbody] at h
    obtain rfl : ls = [] := List.map_eq_nil_iff.mp h
    exact ⟨[], .nil, fun _ => rfl, fun hne => absurd hbody hne⟩
  · rw [if_neg hbody] at h
    obtain ⟨s, ls', rfl, h'⟩ := exists_of_tokensOf h
    obtain rfl : ls' = [] := List.map_eq_nil_iff.mp h'
    exact ⟨_, .cons .nil, fun hnil => absurd hnil hbody, fun _ => ⟨_, rfl, rfl⟩⟩

/-- The tokens of a raw block write it. -/
theorem readsRaw_program (g : Grammar) (hname : name.IsWord)
    (h : tokensOf ls = rawTokens name body) :
    ∃ tree, g.program ls = .ok tree ∧ ReadsRaw name body (.ok tree) := by
  obtain ⟨s, ls₁, rfl, h₁⟩ := exists_of_tokensOf h
  obtain ⟨s', ls₂, rfl, h₂⟩ := exists_of_tokensOf h₁
  obtain ⟨s'', ls₃, rfl, h₃⟩ := exists_of_tokensOf h₂
  obtain ⟨ls₄, ls₅, rfl, h₄, h₅⟩ := List.map_eq_append_iff.mp h₃
  obtain ⟨s₅, ls₆, rfl, h₆⟩ := exists_of_tokensOf h₅
  obtain rfl : ls₆ = [] := List.map_eq_nil_iff.mp h₆
  obtain ⟨path, hpath, hwritten⟩ := exists_path_word g hname s'
  obtain ⟨statements, hcontents, hbody⟩ := exists_contents g h₄
  have hcall : g.WritesCall [⟨.ident name, s'⟩] ⟨.path path, [], none⟩ := .mk hpath .nil .nil
  obtain ⟨node, program, hblock, hcalled, hprogram, hinverse, rfl⟩ :=
    g.builder.exists_rawBlock hwritten [] none statements _
  have hstatement : g.WritesStatement (⟨.rawOpener, s⟩ :: ([⟨.ident name, s'⟩] ++
      ⟨.rawCloser, s''⟩ :: (ls₄ ++ [⟨.rawEnd name, s₅⟩]))) (.block node) :=
    .rawBlock hcall hcontents hblock
  exact ⟨_, program_of_writesStatement hstatement, _, node, path, program, rfl, rfl, hcalled,
    hwritten, hprogram, hinverse, hbody⟩

end Grammar

/-- **The body of a raw block is kept as it is.**  Whatever body the grammar of raw bodies allows
and whatever word names the block, the template is one block of that name, and the text in it is
the body, with the tags and the raw blocks in it. -/
theorem readsRaw_rawTemplate (o : Options) (hname : name.IsWord) (h : RawBody body) :
    ReadsRaw name body (parseRaw o (rawTemplate name body)) := by
  obtain ⟨ls, htokens, hls⟩ := tokenize_rawTemplate o.brackets.isList hname h
  obtain ⟨tree, hprogram, hreads⟩ :=
    (o.grammar (rawTemplate name body)).readsRaw_program hname hls
  rw [parseRaw_of_tokenize htokens, Grammar.parse, hprogram]
  exact hreads

/-- A raw block with braces in front of it, whose tags have two names. -/
def nestedRaw : Text :=
  '}' :: '}' :: (rawOpening ['i', 'f'] ++ (['x'] ++ (rawClosing ['e', 'n', 'd'] ++ ['é'])))

example : rawTemplate ['r', 'a', 'w'] nestedRaw =
    ("\x7b\x7b\x7b\x7braw\x7d\x7d\x7d\x7d" ++
      "\x7d\x7d\x7b\x7b\x7b\x7bif\x7d\x7d\x7d\x7dx\x7b\x7b\x7b\x7b/end\x7d\x7d\x7d\x7dé" ++
      "\x7b\x7b\x7b\x7b/raw\x7d\x7d\x7d\x7d").toList := by decide

/-- This body is kept. -/
theorem readsRaw_nestedRaw : Text.IsWord ['r', 'a', 'w'] ∧ RawBody nestedRaw ∧
    ReadsRaw ['r', 'a', 'w'] nestedRaw (parseRaw {} (rawTemplate ['r', 'a', 'w'] nestedRaw)) := by
  have hname : Text.IsWord ['r', 'a', 'w'] := by decide
  have hinner : RawBody
      (rawOpening ['i', 'f'] ++ (['x'] ++ (rawClosing ['e', 'n', 'd'] ++ ['é']))) :=
    .block (by decide) (by decide) (.char (by decide) .nil) (.char (by decide) .nil)
  have hbody : RawBody nestedRaw := .char (by decide) (.char (by decide) hinner)
  exact ⟨hname, hbody, readsRaw_rawTemplate {} hname hbody⟩

end Stache
