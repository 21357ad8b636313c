import Stache.Proofs.Source.Order
import Stache.Proofs.Token.InTag

/-!
# Markers and modifiers

The `~` markers and the modifiers of a tag stand at its ends.  A delimiter that
opens a tag takes all of them with it: what the tag says does not go on with
another one (`reaches_opener`).  The delimiter that closes a tag takes the `~` in
front of it, since no token inside a tag ends with one.

So the markers and modifiers of the delimiters are those of the whole tag
(`exists_tag`).
-/

namespace Stache

/-- The tag has the given modifier behind its `{{`, perhaps with a marker between them. -/
def Text.OpensWith (w modifier : Text) : Prop :=
  ['{', '{'] ++ modifier <+: w ∨ ['{', '{', '~'] ++ modifier <+: w

instance (w modifier : Text) : Decidable (w.OpensWith modifier) :=
  inferInstanceAs (Decidable (_ ∨ _))

/-- The modifiers that a tag can have. -/
def modifiers : List Text := [['{'], ['&'], ['*'], ['#', '*']]

/-- What stands behind the `{{` and the marker in a delimiter of some kinds. -/
def Opener.Says (m : Text) : Opener → Prop
  | .plain => m ∈ [[], ['&'], ['*']]
  | .unescaped => m = ['{']
  | .block => m ∈ [['#'], ['#', '*']]
  | _ => True

/-- A text that starts with the delimiter has no marker and no modifier that the delimiter has
not. -/
structure Opener.Reaches (kind : Opener) (t cs : Text) : Prop where
  said : ∃ m, kind.Says m ∧ (t = ['{', '{'] ++ m ∨ t = ['{', '{', '~'] ++ m)
  marked : ['{', '{', '~'] <+: cs → ['{', '{', '~'] <+: t
  modified : ∀ m ∈ modifiers, cs.OpensWith m → t.OpensWith m

namespace Reading

variable {cs : Text}

/-! ## Delimiters that open a tag -/

theorem head?_of_chainWidth? {r : Text} {width : Nat} (h : chainWidth? r = some width) :
    ∃ c, r.head? = some c ∧ (isTagSpace c = true ∨ c = 'e') := by
  unfold chainWidth? at h
  split at h
  · next helse =>
      simp only [elseWidth?, Option.ite_none_right_eq_some, Option.some.injEq] at helse
      obtain ⟨hstart, -⟩ := helse
      cases r with
      | nil => simp [spaceWidth] at hstart
      | cons c r =>
          refine ⟨c, rfl, ?_⟩
          cases hc : isTagSpace c with
          | true => exact .inl rfl
          | false =>
              rw [spaceWidth, List.takeWhile_cons_of_neg (by simp [hc])] at hstart
              simp only [List.length_nil, List.drop_zero, List.isPrefixOf, Bool.and_eq_true,
                beq_iff_eq] at hstart
              exact .inr hstart.1.symm
  · cases h

/-- The modifiers that a text starts with stand in its first `k` characters. -/
def Takes (r : Text) (k : Nat) : Prop := ∀ m ∈ modifiers, m <+: r → m.length ≤ k

/-- Only the characters of the modifiers start one. -/
theorem takes_of_head {c : Char} (r : Text) (k : Nat)
    (hc : ∀ m ∈ modifiers, m.head? ≠ some c) : Takes (c :: r) k := by
  intro m hm hstart
  cases m with
  | nil => exact Nat.zero_le k
  | cons d m => exact absurd (congrArg some (List.cons_prefix_cons.mp hstart).1) (hc _ hm)

theorem takes_two (r : Text) : Takes r 2 := by
  have htwo : ∀ m ∈ modifiers, m.length ≤ 2 := by decide
  exact fun m hm _ => htwo m hm

/-- Only `#*` has two characters. -/
theorem takes_one {r : Text} (h : ¬['#', '*'] <+: r) : Takes r 1 := by
  have hone : ∀ m ∈ modifiers, m.length ≤ 1 ∨ m = ['#', '*'] := by decide
  exact fun m hm hstart => (hone m hm).resolve_right fun heq => h (heq ▸ hstart)

theorem takes_zero {r : Text} (h : ∀ m ∈ modifiers, ¬m <+: r) : Takes r 0 :=
  fun m hm hstart => absurd hstart (h m hm)

theorem Modifier.says {kind : Opener} {r : Text} {k : Nat} (h : Modifier r kind k) :
    kind.Says (r.take k) := by
  cases h with
  | starredBlock h | ampersand h =>
      obtain ⟨tail, rfl⟩ := h
      exact .tail _ (.head _)
  | starred h =>
      obtain ⟨tail, rfl⟩ := h
      exact .tail _ (.tail _ (.head _))
  | block h =>
      obtain ⟨tail, rfl⟩ := h
      exact .head _
  | unescaped h =>
      obtain ⟨tail, rfl⟩ := h
      rfl
  | plain => exact .head _
  | inclusion | inclusionBlock | close | inverse | chain => trivial

theorem Modifier.takes {kind : Opener} {r : Text} {k : Nat} (h : Modifier r kind k) :
    Takes r k := by
  cases h with
  | inclusion h | close h | inverse h =>
      obtain ⟨tail, rfl⟩ := h
      exact takes_of_head _ _ (by decide)
  | inclusionBlock | starredBlock => exact takes_two r
  | block _ hstar => exact takes_one hstar
  | chain h =>
      obtain ⟨c, hc, hword⟩ := head?_of_chainWidth? h
      obtain ⟨r, rfl⟩ := List.head?_eq_some_iff.mp hc
      refine takes_of_head _ _ fun m hm hhead => ?_
      have hplain : ∀ m ∈ modifiers, m.head?.any (fun c => isTagSpace c || c == 'e') = false := by
        decide
      have hany := hplain m hm
      rw [hhead] at hany
      simp only [Option.any_some, Bool.or_eq_false_iff, beq_eq_false_iff_ne] at hany
      rcases hword with hspace | he
      · rw [hspace] at hany
        cases hany.1
      · exact hany.2 he
  | unescaped h | ampersand h | starred h =>
      obtain ⟨tail, rfl⟩ := h
      exact takes_one (by simp)
  | plain h =>
      have hfirst : ∀ m ∈ modifiers, m.head?.any (['#', '&', '*', '{'].contains ·) = true := by
        decide
      refine takes_zero fun m hm hstart => ?_
      cases m with
      | nil => cases hfirst [] hm
      | cons c m =>
          obtain ⟨tail, rfl⟩ := hstart
          exact h c (List.contains_iff_mem.mp (hfirst _ hm)) rfl

theorem head_of_mem_modifiers : ∀ m ∈ modifiers, ∃ c r, m = c :: r ∧ c ≠ '~' := by
  intro m hm
  simp only [modifiers, List.mem_cons, List.not_mem_nil, or_false] at hm
  rcases hm with rfl | rfl | rfl | rfl <;> exact ⟨_, _, rfl, by decide⟩

/-- A delimiter without a marker of its own. -/
theorem reaches_unmarked {kind : Opener} {r : Text} {k : Nat} (hsaid : kind.Says (r.take k))
    (htakes : Takes r k) (hr : r.head? ≠ some '~') :
    kind.Reaches (['{', '{'] ++ r.take k) (['{', '{'] ++ r) := by
  have hmark (m : Text) : ¬ '~' :: m <+: r := by
    rintro ⟨tail, rfl⟩
    exact hr rfl
  refine ⟨⟨_, hsaid, .inl rfl⟩, fun h => ?_, fun m hm h => ?_⟩
  · exact absurd ((List.prefix_append_right_inj ['{', '{']).mp h) (hmark [])
  · rcases h with h | h
    · have hstart := (List.prefix_append_right_inj ['{', '{']).mp h
      exact .inl ((List.prefix_append_right_inj ['{', '{']).mpr
        (List.prefix_take_iff.mpr ⟨hstart, htakes m hm hstart⟩))
    · exact absurd ((List.prefix_append_right_inj ['{', '{']).mp h) (hmark m)

/-- A delimiter with a marker. -/
theorem reaches_marked {kind : Opener} {r : Text} {k : Nat} (hsaid : kind.Says (r.take k))
    (htakes : Takes r k) :
    kind.Reaches (['{', '{', '~'] ++ r.take k) (['{', '{', '~'] ++ r) := by
  refine ⟨⟨_, hsaid, .inr rfl⟩, fun _ => List.prefix_append _ _, fun m hm h => ?_⟩
  rcases h with h | h
  · obtain ⟨c, m, rfl, hc⟩ := head_of_mem_modifiers m hm
    have hstart := (List.prefix_append_right_inj ['{', '{']).mp h
    exact absurd (List.cons_prefix_cons.mp hstart).1 hc
  · have hstart := (List.prefix_append_right_inj ['{', '{', '~']).mp h
    exact .inr ((List.prefix_append_right_inj ['{', '{', '~']).mpr
      (List.prefix_take_iff.mpr ⟨hstart, htakes m hm hstart⟩))

/-- If the reading is of a delimiter that opens a tag, it has all markers and modifiers. -/
def Reached (cs : Text) : Reading → Prop
  | .token (.opener kind t) _ => kind.Reaches t cs
  | _ => True

theorem Delimiter.reached {x : Reading} (h : Delimiter cs x) : x.Reached cs := by
  cases h with
  | opener hcs hfront h =>
      rw [hcs, List.take_length_add_append]
      rcases hfront with ⟨rfl, hr⟩ | rfl
      · exact reaches_unmarked h.says h.takes hr
      · exact reaches_marked h.says h.takes
  | _ => trivial

theorem Symbol.reached {spelling : Text} {t : Token} (h : Symbol spelling t) (width : Nat) :
    Reached cs (.token t width) := by
  cases h <;> trivial

theorem Shape.reached {x : Reading} (h : Shape cs x) : x.Reached cs := by
  cases h with
  | delimiter h => exact h.reached
  | symbol h => exact h.reached _
  | _ => trivial

/-- A delimiter at the start of a text inside a tag has all markers and modifiers that the text
starts with. -/
theorem reached_readToken (square afterSeparator : Bool) (cs : Text) :
    All (Reached cs) (readToken square afterSeparator cs) :=
  (shape_readToken square afterSeparator cs).mono Shape.reached

/-! ## Ends of tokens inside a tag -/

/-- The character can stand in a number. -/
def isNumeric (c : Char) : Bool := c.isDigit || c == '.' || c == '-'

theorem all_numeric_digits (cs : Text) :
    (cs.take (cs.takeWhile Char.isDigit).length).all isNumeric = true := by
  rw [← List.prefix_iff_eq_take.mp (List.takeWhile_prefix Char.isDigit)]
  refine List.all_eq_true.mpr fun c hc => ?_
  rw [isNumeric, List.all_eq_true.mp List.all_takeWhile c hc]
  rfl

theorem all_numeric_fraction (cs : Text) : (cs.take (fractionWidth cs)).all isNumeric = true := by
  rw [fractionWidth.eq_def]
  split
  · next r =>
      dsimp only
      split
      · rfl
      · rw [List.take_succ_cons, List.all_cons, all_numeric_digits]
        rfl
  · rfl

theorem all_numeric_numberWidth? {width : Nat} (h : numberWidth? cs = some width) :
    (cs.take width).all isNumeric = true := by
  simp only [numberWidth?, Option.ite_none_left_eq_some, Option.some.injEq] at h
  obtain ⟨-, rfl⟩ := h
  generalize hsign : (if cs.head? = some '-' then 1 else 0) = sign
  have hfirst : (cs.take sign).all isNumeric = true := by
    split at hsign <;> subst hsign
    · next hhead =>
        obtain ⟨r, rfl⟩ := List.head?_eq_some_iff.mp hhead
        rfl
    · rfl
  rw [List.take_add, List.take_add, List.all_append, List.all_append, hfirst, all_numeric_digits,
    all_numeric_fraction]
  rfl

/-- If the reading is of a token inside a tag, it does not end with `~`. -/
def Unmarked (cs : Text) : Reading → Prop
  | .token t width => t.isInner = true → (cs.take width).getLast? ≠ some '~'
  | _ => True

theorem IsOuter.unmarked {x : Reading} (h : x.IsOuter) : x.Unmarked cs := by
  cases x with
  | token t width => exact fun hinner => absurd (hinner.symm.trans h) (by decide)
  | unterminatedComment | unterminatedString => trivial

theorem Symbol.getLast?_ne {spelling : Text} {t : Token} (h : Symbol spelling t) :
    spelling.getLast? ≠ some '~' := by
  cases h <;> decide

theorem Shape.unmarked {x : Reading} (h : Shape cs x) : x.Unmarked cs := by
  have hconcat {w : Text} {c : Char} (hc : c ≠ '~') : (w ++ [c]).getLast? ≠ some '~' := by
    rw [List.getLast?_concat]
    exact fun h => hc (Option.some.inj h)
  cases h with
  | delimiter h => exact h.outer.unmarked
  | symbol h hstart =>
      intro _
      rw [← List.prefix_iff_eq_take.mp hstart]
      exact h.getLast?_ne
  | dot hcs =>
      rw [hcs]
      exact fun _ => by simp
  | string hcs hquote =>
      obtain ⟨-, quote, body, hquote, hw, -⟩ := (Shape.string hcs hquote).spelled
      intro _
      rw [hw, ← List.cons_append]
      exact hconcat (by rcases hquote with rfl | rfl <;> decide)
  | number h =>
      intro _ hlast
      have hmem := List.mem_of_getLast? hlast
      exact absurd (List.all_eq_true.mp (all_numeric_numberWidth? h) _ hmem) (by decide)
  | paramsOpen hcs hne hspace =>
      obtain ⟨-, space, -, -, hw⟩ := (Shape.paramsOpen hcs hne hspace).spelled
      intro _
      rw [hw, ← List.append_assoc]
      exact hconcat (by decide)
  | ident hcs hne hname =>
      intro _ hlast
      rw [hcs, List.take_left] at hlast
      exact absurd (List.all_eq_true.mp hname _ (List.mem_of_getLast? hlast)) (by decide)
  | @bracketIdent name r hcs =>
      intro _
      rw [hcs, take_bracketed, ← List.cons_append]
      exact hconcat (by decide)
  | unterminatedString => trivial

/-- No token inside a tag ends with `~`. -/
theorem unmarked_readToken (square afterSeparator : Bool) (cs : Text) :
    All (Unmarked cs) (readToken square afterSeparator cs) :=
  (shape_readToken square afterSeparator cs).mono Shape.unmarked

end Reading

/-! ## Whole tags -/

variable {square after : Bool} {offset : Nat} {cs v : Text} {ls : List Lexeme}

/-- The last character of two texts is that of the second one, if it has any. -/
theorem getLast?_append_ne {t u : Text} {c : Char} (ht : u = [] → t.getLast? ≠ some c)
    (hu : u.getLast? ≠ some c) : (t ++ u).getLast? ≠ some c := by
  intro h
  rw [List.getLast?_append, Option.or_eq_some_iff, List.getLast?_eq_none_iff] at h
  exact h.elim hu fun h => ht h.1 h.2

theorem getLast?_space_ne {space : Text} (h : space.all isTagSpace = true) :
    space.getLast? ≠ some '~' := fun hlast =>
  absurd (List.all_eq_true.mp h _ (List.mem_of_getLast? hlast)) (by decide)

/-- What stands inside a tag does not end with `~`. -/
theorem InTag.unmarked (h : InTag square v after offset cs ls) (hls : Inner ls) :
    cs.getLast? ≠ some '~' := by
  induction h with
  | nil => nofun
  | cons hspace _ hread _ _ _ ih =>
      obtain ⟨ht, hls⟩ := List.forall_mem_cons.mp hls
      have hlast := Reading.unmarked_readToken _ _ _ _ hread ht
      rw [List.take_left] at hlast
      exact getLast?_append_ne (fun _ => getLast?_space_ne hspace)
        (getLast?_append_ne (fun _ => hlast) (ih hls))

/-- The `~` in front of two closing braces belongs to the delimiter that they end. -/
theorem suffix_marked_iff {front closer : Text} (hcloser : ['}', '}'] <:+ closer)
    (hfront : front.getLast? ≠ some '~') :
    ['~', '}', '}'] <:+ front ++ closer ↔ ['~', '}', '}'] <:+ closer := by
  refine ⟨?_, fun h => h.trans (List.suffix_append _ _)⟩
  rintro ⟨a, ha⟩
  obtain ⟨x, rfl⟩ := hcloser
  have hcut : (a ++ ['~']) ++ ['}', '}'] = (front ++ x) ++ ['}', '}'] := by
    rw [List.append_assoc, List.append_assoc]
    exact ha
  replace hcut := List.append_cancel_right hcut
  rcases List.eq_nil_or_concat x with rfl | ⟨x, d, rfl⟩
  · rw [List.append_nil] at hcut
    exact absurd (hcut ▸ List.getLast?_concat) hfront
  · rw [List.concat_eq_append, ← List.append_assoc] at hcut
    obtain ⟨-, hd⟩ := List.append_inj' hcut rfl
    rw [← List.cons.inj hd |>.1, List.concat_eq_append]
    exact ⟨x, by simp⟩

/-- The source text of a tag, and its delimiters. -/
structure Text.DelimitedBy (w : Text) (kind : Opener) (opener closer : Text) : Prop where
  said : ∃ m, kind.Says m ∧ (opener = ['{', '{'] ++ m ∨ opener = ['{', '{', '~'] ++ m)
  ends : ['}', '}'] <:+ closer
  opens : ['{', '{'] <+: w
  closes : ['}', '}'] <:+ w
  marked : ['{', '{', '~'] <+: w ↔ ['{', '{', '~'] <+: opener
  modified : ∀ m ∈ modifiers, w.OpensWith m ↔ opener.OpensWith m
  closed : ['~', '}', '}'] <:+ w ↔ ['~', '}', '}'] <:+ closer

theorem Text.OpensWith.mono {t w m : Text} (h : t.OpensWith m) (ht : t <+: w) : w.OpensWith m :=
  h.imp (·.trans ht) (·.trans ht)

/-- The markers and modifiers of a tag are those of its delimiters. -/
theorem InTag.delimitedBy {kind : Opener} {opener closer : Text} {t : Token} {s s' : Span}
    {inner : List Lexeme}
    (h : InTag square v after offset cs (⟨.opener kind opener, s⟩ :: (inner ++ [⟨t, s'⟩])))
    (hs : s.start = offset) (hinner : Inner inner) (hne : inner ≠ [])
    (ht : t = .closer closer ∨ t = .unescapedCloser closer) (hcloser : ['}', '}'] <:+ closer) :
    cs.DelimitedBy kind opener closer := by
  obtain ⟨w, cs, rfl, hread, h⟩ := h.exists_read hs
  have hreaches : kind.Reaches opener (w ++ (cs ++ v)) :=
    Reading.reached_readToken square after _ _ hread
  obtain rfl : opener = w := by
    have hspells := (Reading.all_spelled_readToken _ _ _ _ hread).2
    rw [List.take_left] at hspells
    exact hspells.symm
  obtain ⟨said, rest, _, rfl, hsaid, hlast⟩ := h.append
  cases hlast with
  | @cons _ _ _ _ space w _ c _ _ hspace _ hread' _ _ hend =>
      cases hend with
      | nil =>
          obtain rfl : closer = c :: w := by
            have hspells := (Reading.all_spelled_readToken _ _ _ _ hread').2
            rw [List.take_left] at hspells
            rcases ht with rfl | rfl <;> exact hspells.symm
          have hfront : (opener ++ (said ++ space)).getLast? ≠ some '~' := by
            rw [← List.append_assoc]
            refine getLast?_append_ne (fun _ => ?_) (getLast?_space_ne hspace)
            exact getLast?_append_ne (fun hnil => absurd hnil (hsaid.ne_nil hne))
              (hsaid.unmarked hinner)
          have htext : opener ++ (said ++ (space ++ (c :: w ++ []))) =
              opener ++ (said ++ space) ++ (c :: w) := by
            simp only [List.append_assoc, List.append_nil]
          have hopener : opener <+: opener ++ (said ++ (space ++ (c :: w ++ []))) :=
            List.prefix_append _ _
          have hwhole : opener ++ (said ++ (space ++ (c :: w ++ []))) <+:
              opener ++ (said ++ (space ++ (c :: w ++ [])) ++ v) :=
            ⟨v, by simp only [List.append_assoc]⟩
          refine ⟨hreaches.said, hcloser, ?_, ?_,
            ⟨fun h => hreaches.marked (h.trans hwhole), (·.trans hopener)⟩,
            fun m hm => ⟨fun h => hreaches.modified m hm (h.mono hwhole), (·.mono hopener)⟩, ?_⟩
          · obtain ⟨m, -, rfl | rfl⟩ := hreaches.said
            · exact ⟨_, rfl⟩
            · exact ⟨'~' :: _, rfl⟩
          · rw [htext]
            exact hcloser.trans (List.suffix_append _ _)
          · rw [htext]
            exact suffix_marked_iff hcloser hfront

/-- Tokens of a template that are those of a tag between delimiters. -/
theorem delimitedBy_of_tokenize {text : Text} {kind : Opener} {opener closer : Text} {t : Token}
    {s s' : Span} {inner : List Lexeme}
    (h : ⟨.opener kind opener, s⟩ :: (inner ++ [⟨t, s'⟩]) <:+: (tokenize square text).lexemes)
    (hinner : Inner inner) (hne : inner ≠ [])
    (ht : t = .closer closer ∨ t = .unescapedCloser closer) :
    (text.slice (covered (⟨.opener kind opener, s⟩ :: (inner ++ [⟨t, s'⟩]))).start
      (covered (⟨.opener kind opener, s⟩ :: (inner ++ [⟨t, s'⟩]))).stop).DelimitedBy
      kind opener closer := by
  obtain ⟨before, behind, hlexemes⟩ := h
  rw [List.append_assoc] at hlexemes
  have hofTag : t.ofTag = true := by rcases ht with rfl | rfl <;> rfl
  have hcloser : ['}', '}'] <:+ closer := by
    have hdelimited := delimited_tokenize square text ⟨t, s'⟩ (by simp [← hlexemes])
    rcases ht with rfl | rfl <;> exact hdelimited
  obtain ⟨u, w, v, after, rfl, hin, hcovered⟩ :=
    (InOneTag.cons rfl (hinner.inOneTag_append hofTag)).exists_inTag hlexemes.symm
  rw [hcovered, Text.slice_append]
  exact hin.delimitedBy (congrArg Span.start hcovered) hinner hne ht hcloser

end Stache
