import Stache.Proofs.Grammar.Begins

/-!
# Calls that go on

What a production makes of some tokens follows what it makes of a list that they begin: here
for paths, expressions and calls.

Inside a tag a reading can end with its tokens, where a path or a list of arguments is done.
More tokens may go on with it.  A path of which the first part is refused is refused.

A path is also done in front of a word that breaks off in the place of a separator (`Trails`).
The call takes this word as a parameter, and is done there as well.
-/

namespace Stache
namespace Grammar

variable {K : Cut} {ends : Cursor → Prop} {links calls : List Bool} {m m' : Stage} {g g' : Grammar}
  {c c' : Cursor} {α : Type}

/-! ## Words that are left -/

/-- At the end nothing but words is left. -/
theorem atWords_of_rest (h : c.rest = []) : AtWords c := by
  rw [AtWords, Cursor.tokens, h]
  exact .nil

/-- No word separates segments. -/
theorem AtWords.separator (h : AtWords c) : c.peek?.any Token.isSeparator = false := by
  obtain ⟨last, rest⟩ := c
  cases rest with
  | nil => rfl
  | cons l ls =>
      obtain ⟨t, s⟩ := l
      cases h with
      | cons hexpr => cases t <;> first | rfl | cases hexpr

/-- What an expression leaves when it ends early is nothing but words. -/
theorem Trails.atWords (h : Trails K calls c) : AtWords c := by
  rcases h with hnil | ⟨-, -, hwords⟩
  · exact atWords_of_rest hnil
  · exact hwords

/-- It leaves nothing where no parameter can stand. -/
theorem Trails.rest_eq_nil (h : Trails K calls c) (hcalls : calls.headD false = true) :
    c.rest = [] := by
  rcases h with hnil | ⟨-, hfree, -⟩
  · exact hnil
  · cases hfree.symm.trans hcalls

section

variable {t₀ t : Token} {s : Span} {c₁ : Cursor} {ts : List Token}
  {h₁ : c₁.rest.length < c.rest.length}

/-- Where a word breaks off, nothing but words is left. -/
theorem BreaksOff.atWords_of_next? (h : BreaksOff m t₀ c₁.tokens t ts)
    (hnext : c.next? = some ⟨⟨t₀, s⟩, c₁, h₁⟩) : AtWords c := by
  rw [AtWords, Cursor.tokens_of_next? hnext]
  exact h.atWords

/-- In the place of a separator a word breaks off that is a parameter. -/
theorem BreaksOff.trails (h : BreaksOff ⟨links, calls, .tag⟩ t₀ c₁.tokens t ts)
    (hnext : c.next? = some ⟨⟨t₀, s⟩, c₁, h₁⟩) (hwhole : K.whole = false)
    (ht : t.isSeparator = true) : Trails K calls c := by
  refine .inr ⟨hwhole, Bool.eq_false_iff.mpr fun hcalls => ?_, h.atWords_of_next? hnext⟩
  have hword := (h.of_noParams ((Stage.noParams_tag links calls).trans hcalls)).1
  cases ht.symm.trans (isSeparator_of_isWord hword)

/-- The first of the words that break off is an expression, and the others are parameters. -/
theorem Stops.trails {x : Except Refusal (Parsed α c.rest.length)} (hx : Stops K AtWords x)
    (hnext : c.next? = some ⟨⟨t₀, s⟩, c₁, h₁⟩) (hwhole : K.whole = false)
    (h : BreaksOff ⟨links, calls, .tag⟩ t₀ c₁.tokens t ts) : Stops K (Trails K calls) x := by
  cases x with
  | error r => exact hx
  | ok p =>
      cases hcalls : calls.headD false with
      | false => exact .inr ⟨hwhole, hcalls, hx⟩
      | true =>
          have hnil := h.eq_nil_of_noParams ((Stage.noParams_tag links calls).trans hcalls)
          have hone : c.rest.length = 1 := by
            rw [(Cursor.reads_of_next? hnext).rest_eq, List.map_eq_nil_iff.mp hnil]
            rfl
          exact .inl (List.eq_nil_of_length_eq_zero (Nat.lt_one_iff.mp (hone ▸ p.fits)))

end

/-! ## Paths -/

/-- A path ends in front of what separates no segments. -/
theorem moreSegments_eq_stay (h : c.peek?.any Token.isSeparator = false) :
    moreSegments c = .ok (.stay c []) := by
  obtain ⟨last, rest⟩ := c
  rw [moreSegments]
  cases rest with
  | nil => rfl
  | cons l ls =>
      obtain ⟨t, s⟩ := l
      cases t <;> first | rfl | cases h

/-- So does an expression that starts with a call in parentheses. -/
theorem afterSub_eq_stay {start : Nat} {sub : SubExpr}
    (h : c.peek?.any Token.isSeparator = false) :
    afterSub g start sub c = .ok (.stay c (.sub sub)) := by
  obtain ⟨last, rest⟩ := c
  rw [afterSub]
  cases rest with
  | nil => rfl
  | cons l ls =>
      obtain ⟨t, s⟩ := l
      cases t <;> first | rfl | cases h

/-- At the end a path may be done. -/
theorem stops_moreSegments (h : c.rest = []) : Stops K Spent (moreSegments c) := by
  rw [moreSegments_eq_stay (atWords_of_rest h).separator]
  exact h

theorem stops_segments (h : c.rest = []) : Stops K ends (segments c) := (stops_expect h).bind

/-- An identifier may break off where it is asked for. -/
theorem follows_ident {expected : Expected} (h : Goes K m c c') (hm : m.site.wantsName = true)
    (hbehind : ∀ name, m'.Weaker (m.next (.ident name))) :
    Follows K Spent m' (c.expect expected Token.ident?) (c'.expect expected Token.ident?) := by
  cases h.next (Site.ne_text (Site.inTag_of_wantsName hm)) with
  | stop hnone => exact .stops (stops_expect hnone)
  | @token t s c₁ c₁' h₁ h₁' hnext hnext' hstart hgoes =>
      simp only [Cursor.expect, hnext, hnext']
      cases t with
      | ident name => exact .ok rfl (hgoes.weaken (hbehind name))
      | _ => exact follows_refuse hnext hnext' hstart hgoes
  | word hnext _ _ _ _ hoff =>
      obtain ⟨hnil, name, rfl⟩ := hoff.of_wantsName hm
      simp only [Cursor.expect, hnext]
      exact .stops (List.map_eq_nil_iff.mp hnil)

/-- More segments in the first tokens are segments in all of them. -/
theorem follows_moreSegments {c c' : Cursor} (h : Goes K ⟨links, calls, .tag⟩ c c') :
    Follows K (Trails K calls) ⟨links, calls, .tag⟩ (moreSegments c) (moreSegments c') := by
  cases h.next (Site.ne_text rfl) with
  | stop hnone =>
      rw [moreSegments_eq_stay (atWords_of_rest hnone).separator]
      exact .stops (.inl hnone)
  | @token t s c₁ c₁' h₁ h₁' hnext hnext' _ hgoes =>
      cases t with
      | separator kind =>
          rw [moreSegments, moreSegments]
          simp only [hnext, hnext']
          refine .bind_ends (.commit hgoes stops_expect fun _ => follows_ident hgoes rfl
            fun name => .of_site (.path _)) (fun p _ hp => .stops ?_) ?_
          · exact (stops_moreSegments hp).bind_ends fun p _ hp => .inl hp
          rintro ⟨name, c₂, h₂⟩ ⟨_, c₂', h₂'⟩ - rfl hgoes -
          refine .bind_ends (follows_moreSegments hgoes) (fun p _ hp => .stops hp) ?_
          rintro ⟨more, c₃, h₃⟩ ⟨_, c₃', h₃'⟩ - rfl hgoes -
          exact .ok rfl hgoes
      | _ =>
          rw [moreSegments, moreSegments]
          simp only [hnext, hnext']
          exact .ok rfl h
  | @word t₀ t _ _ _ _ _ _ hnext hnext' hwhole _ _ hoff =>
      rw [moreSegments_eq_stay (hoff.atWords_of_next? hnext).separator]
      cases ht : t.isSeparator with
      | false =>
          rw [moreSegments_eq_stay (by rw [Cursor.peek?_of_next? hnext']; exact ht)]
          exact .ok rfl h
      | true => exact .stops (hoff.trails hnext hwhole ht)
termination_by c.rest.length

/-- The segments of a path in the first tokens are segments in all of them. -/
theorem follows_segments {named : Bool} (h : Goes K ⟨links, calls, .segment named⟩ c c') :
    Follows K (Trails K calls) ⟨links, calls, .tag⟩ (segments c) (segments c') := by
  refine .bind_ends (follows_ident h rfl fun name => .of_site (.path _))
    (fun p _ hp => .stops ?_) ?_
  · exact (stops_moreSegments hp).bind_ends fun p _ hp => .inl hp
  rintro ⟨name, c₁, h₁⟩ ⟨_, c₁', h₁'⟩ - rfl hgoes -
  refine .bind_ends (follows_moreSegments hgoes) (fun p _ hp => .stops hp) ?_
  rintro ⟨more, c₂, h₂⟩ ⟨_, c₂', h₂'⟩ - rfl hgoes -
  exact .ok rfl hgoes

/-! ## Paths that end early -/

/-- A path that goes on from some names is refused. -/
def Refused (q : PathPrefix) (segments : List Segment) : Prop :=
  ∃ e, segments.foldlM PathPrefix.add q = .error e

/-- What is refused is refused in its first part or, behind it, in the second. -/
theorem exists_bind_eq_error_iff {ε α β : Type} {x : Except ε α} {f : α → Except ε β} :
    (∃ e, (x >>= f) = .error e) ↔
      (∃ e, x = .error e) ∨ ∃ a, x = .ok a ∧ ∃ e, f a = .error e := by
  cases x with
  | ok a =>
      constructor
      · exact fun h => .inr ⟨a, rfl, h⟩
      · rintro (⟨e, ⟨⟩⟩ | ⟨_, ⟨⟩, h⟩)
        exact h
  | error e => exact ⟨fun _ => .inl ⟨e, rfl⟩, fun _ => ⟨e, rfl⟩⟩

/-- A path is refused at its next segment or at a later one. -/
theorem refused_cons {q : PathPrefix} {s : Segment} {segments : List Segment} :
    Refused q (s :: segments) ↔
      (∃ e, q.add s = .error e) ∨ ∃ q', q.add s = .ok q' ∧ Refused q' segments := by
  rw [Refused, List.foldlM_cons]
  exact exists_bind_eq_error_iff

/-- Only an operator behind a name is refused. -/
theorem add_eq_error_iff {q : PathPrefix} {s : Segment} :
    (∃ e, q.add s = .error e) ↔ s.isOperator = true ∧ q.names ≠ [] := by
  unfold PathPrefix.add
  dsimp only
  constructor
  · rintro ⟨e, he⟩
    split at he
    · next hop =>
        split at he
        · cases he
        · next hnames => exact ⟨hop, fun h => hnames (List.isEmpty_iff.mpr h)⟩
    · cases he
  · rintro ⟨hop, hnames⟩
    rw [if_pos hop, if_neg fun h => hnames (List.isEmpty_iff.mp h)]
    exact ⟨_, rfl⟩

/-- Behind an operator no more names stand than in front. -/
theorem names_of_add {q q' : PathPrefix} {s : Segment} (hs : s.isOperator = true)
    (h : q.add s = .ok q') : q'.names = q.names := by
  unfold PathPrefix.add at h
  dsimp only at h
  rw [if_pos hs] at h
  split at h
  · cases h
    rfl
  · cases h

/-- Two readings of segments, of a path that has `named` one in front.  What the first one makes
the path refused for is there in the other one.  If it takes all tokens, these end in a tag. -/
def Extends (K : Cut) (named : Bool) {n n' : Nat} (x : Except Refusal (Parsed (List Segment) n))
    (x' : Except Refusal (Parsed (List Segment) n')) : Prop :=
  ∀ ⦃p⦄, x = .ok p → (p.cursor.rest = [] → K.whole = false) ∧
    ∀ ⦃p'⦄, x' = .ok p' →
      ∀ ⦃q⦄, (named = false → q.names = []) → Refused q p.value → Refused q p'.value

/-- An identifier that is asked for is the same in both, or breaks off. -/
theorem exists_of_ident {expected : Expected} (h : Goes K m c c') (hm : m.site.wantsName = true)
    {p : Parsed Text c.rest.length} (hp : c.expect expected Token.ident? = .ok p) :
    (∃ p', c'.expect expected Token.ident? = .ok p' ∧ p'.value = p.value ∧
        Goes K (m.next (.ident p.value)) p.cursor p'.cursor) ∨
      K.whole = false ∧ p.cursor.rest = [] ∧
        ∀ p', c'.expect expected Token.ident? = .ok p' → m.site = .segment true →
          isOperator p.value = true → isOperator p'.value = true := by
  cases h.next (Site.ne_text (Site.inTag_of_wantsName hm)) with
  | stop hnone =>
      rw [Cursor.expect, Cursor.next?_eq_none hnone] at hp
      cases hp
  | @token t _ _ _ _ _ hnext hnext' _ hgoes =>
      simp only [Cursor.expect, hnext] at hp
      simp only [Cursor.expect, hnext']
      cases t with
      | ident name =>
          cases hp
          exact .inl ⟨_, rfl, rfl, hgoes⟩
      | _ => cases hp
  | @word _ t _ _ _ _ _ _ hnext hnext' hwhole _ _ hoff =>
      obtain ⟨hnil, name, rfl⟩ := hoff.of_wantsName hm
      simp only [Cursor.expect, hnext] at hp
      simp only [Cursor.expect, hnext']
      cases hp
      refine .inr ⟨hwhole, List.map_eq_nil_iff.mp hnil, fun p' hp' hsegment hname => ?_⟩
      have hop := hoff.operator hsegment hname
      cases t with
      | ident name' =>
          cases hp'
          exact hop
      | _ => cases hp'

/-- At the end there are no more segments. -/
theorem value_moreSegments {p : Parsed (List Segment) (c.rest.length + 1)}
    (h : moreSegments c = .ok p) (hc : c.peek?.any Token.isSeparator = false) :
    p.value = [] ∧ p.cursor = c := by
  rw [moreSegments_eq_stay hc] at h
  cases h
  exact ⟨rfl, rfl⟩

/-- A segment and more that two readings have in common extend what more of them do. -/
theorem refused_of_extends {named : Bool} {name : Text} {kind : Option Separator} {n n' : Nat}
    {x : Except Refusal (Parsed (List Segment) n)} {x' : Except Refusal (Parsed (List Segment) n')}
    {p : Parsed (List Segment) n} {p' : Parsed (List Segment) n'} {q : PathPrefix}
    (h : Extends K (named || !isOperator name) x x') (hp : x = .ok p) (hp' : x' = .ok p')
    (hq : named = false → q.names = [])
    (hrefused : Refused q (.ofIdent name kind :: p.value)) :
    Refused q (.ofIdent name kind :: p'.value) := by
  rcases refused_cons.mp hrefused with hadd | ⟨q', hadd, hrefused⟩
  · exact refused_cons.mpr (.inl hadd)
  · refine refused_cons.mpr (.inr ⟨q', hadd, (h hp).2 hp' (fun hfree => ?_) hrefused⟩)
    obtain ⟨hnamed, hop⟩ := Bool.or_eq_false_iff.mp hfree
    rw [Bool.not_eq_false'] at hop
    exact (names_of_add (s := .ofIdent name kind) hop hadd).trans (hq hnamed)

/-- A last segment that a path is refused for is an operator behind a name. -/
theorem refused_singleton {q : PathPrefix} {name : Text} {kind : Option Separator} :
    Refused q [.ofIdent name kind] ↔ isOperator name = true ∧ q.names ≠ [] := by
  have hadd : (∃ e, q.add (.ofIdent name kind) = .error e) ↔
      isOperator name = true ∧ q.names ≠ [] := add_eq_error_iff
  refine refused_cons.trans ⟨?_, fun h => .inl (hadd.mpr h)⟩
  rintro (h | ⟨q', -, e, he⟩)
  · exact hadd.mp h
  · cases he

/-- More segments that end inside a tag are the first ones of the longer path. -/
theorem extends_moreSegments {named : Bool} {c c' : Cursor}
    (h : Goes K ⟨links, calls, .path named⟩ c c') :
    Extends K named (moreSegments c) (moreSegments c') := by
  intro p hp
  cases h.next (Site.ne_text rfl) with
  | stop hnone =>
      obtain ⟨hvalue, -⟩ := value_moreSegments hp (atWords_of_rest hnone).separator
      rw [hvalue]
      exact ⟨fun _ => h.whole_eq_false rfl hnone, fun p' _ q _ ⟨e, he⟩ => nomatch he⟩
  | word hnext _ hwhole _ _ hoff =>
      obtain ⟨hvalue, -⟩ := value_moreSegments hp (hoff.atWords_of_next? hnext).separator
      rw [hvalue]
      exact ⟨fun _ => hwhole, fun p' _ q _ ⟨e, he⟩ => nomatch he⟩
  | @token t s c₁ c₁' h₁ h₁' hnext hnext' _ hgoes =>
      cases ht : t.isSeparator with
      | false =>
          obtain ⟨hvalue, hcursor⟩ :=
            value_moreSegments hp (by rw [Cursor.peek?_of_next? hnext]; exact ht)
          rw [hvalue, hcursor]
          exact ⟨fun hnone => absurd hnone (Cursor.rest_ne_nil_of_next? hnext),
            fun p' _ q _ ⟨e, he⟩ => nomatch he⟩
      | true =>
          obtain ⟨kind, rfl⟩ : ∃ kind, t = .separator kind := by
            cases t <;> first | exact ⟨_, rfl⟩ | cases ht
          rw [moreSegments] at hp ⊢
          simp only [hnext, hnext'] at hp ⊢
          obtain ⟨⟨name, c₂, h₂⟩, hident, hp⟩ := exists_of_bind_eq_ok hp
          obtain ⟨⟨more, c₃, h₃⟩, hmore, hp⟩ := exists_of_bind_eq_ok hp
          cases hp
          rcases exists_of_ident hgoes rfl (Cursor.eq_ok_of_commit hident) with
            ⟨⟨name', c₂', h₂'⟩, hident', rfl, hgoes⟩ | ⟨hwhole, hnil, hname⟩
          · have hextends := extends_moreSegments hgoes
            refine ⟨(hextends hmore).1, fun p' hp' q hq hrefused => ?_⟩
            obtain ⟨_, hcommit, hp'⟩ := exists_of_bind_eq_ok hp'
            cases hident'.symm.trans (Cursor.eq_ok_of_commit hcommit)
            obtain ⟨⟨more', c₃', h₃'⟩, hmore', hp'⟩ := exists_of_bind_eq_ok hp'
            cases hp'
            exact refused_of_extends hextends hmore hmore' hq hrefused
          · refine ⟨fun _ => hwhole, fun p' hp' q hq hrefused => ?_⟩
            obtain ⟨⟨name', c₂', h₂'⟩, hcommit, hp'⟩ := exists_of_bind_eq_ok hp'
            obtain ⟨⟨more', c₃', h₃'⟩, -, hp'⟩ := exists_of_bind_eq_ok hp'
            cases hp'
            obtain ⟨rfl, -⟩ := value_moreSegments hmore (atWords_of_rest hnil).separator
            obtain ⟨hop, hnames⟩ := refused_singleton.mp hrefused
            have hnamed : named = true := by
              cases named with
              | true => rfl
              | false => exact absurd (hq rfl) hnames
            subst hnamed
            have hop' := hname _ (Cursor.eq_ok_of_commit hcommit) rfl hop
            exact refused_cons.mpr (.inl (add_eq_error_iff.mpr ⟨hop', hnames⟩))
termination_by c.rest.length

/-- Segments that end inside a tag are the first ones of the longer path. Its first name
stands behind no other, so it cannot be the reason of a refusal. -/
theorem extends_segments (h : Goes K ⟨links, calls, .segment false⟩ c c') :
    Extends K false (segments c) (segments c') := by
  intro p hp
  obtain ⟨⟨name, c₁, h₁⟩, hident, hp⟩ := exists_of_bind_eq_ok hp
  obtain ⟨⟨more, c₂, h₂⟩, hmore, hp⟩ := exists_of_bind_eq_ok hp
  cases hp
  rcases exists_of_ident h rfl hident with
    ⟨⟨name', c₁', h₁'⟩, hident', rfl, hgoes⟩ | ⟨hwhole, hnil, -⟩
  · have hextends := extends_moreSegments hgoes
    refine ⟨(hextends hmore).1, fun p' hp' q hq hrefused => ?_⟩
    obtain ⟨_, hident₁, hp'⟩ := exists_of_bind_eq_ok hp'
    cases hident'.symm.trans hident₁
    obtain ⟨⟨more', c₂', h₂'⟩, hmore', hp'⟩ := exists_of_bind_eq_ok hp'
    cases hp'
    exact refused_of_extends hextends hmore hmore' hq hrefused
  · refine ⟨fun _ => hwhole, fun p' hp' q hq hrefused => ?_⟩
    obtain ⟨rfl, -⟩ := value_moreSegments hmore (atWords_of_rest hnil).separator
    exact absurd (hq rfl) (refused_singleton.mp hrefused).2

theorem Extends.commit {named : Bool} {n n' : Nat} {x : Except Refusal (Parsed (List Segment) n)}
    {x' : Except Refusal (Parsed (List Segment) n')} (h : Extends K named x x') :
    Extends K named (c.commit x) (c'.commit x') := by
  intro p hp
  obtain ⟨hwhole, hextends⟩ := h (Cursor.eq_ok_of_commit hp)
  exact ⟨hwhole, fun p' hp' => hextends (Cursor.eq_ok_of_commit hp')⟩

/-- A path is refused in its first part or, behind it, in the second. -/
theorem refused_append {q : PathPrefix} {front segments : List Segment} :
    Refused q (front ++ segments) ↔
      Refused q front ∨ ∃ q', front.foldlM PathPrefix.add q = .ok q' ∧ Refused q' segments := by
  rw [Refused, List.foldlM_append]
  exact exists_bind_eq_error_iff

/-- The builder refuses a path for its segments only. -/
theorem exists_refused_of_path {b : Builder} {data : Bool} {head : Option SubExpr}
    {segments : List Segment} {x : Extent} {e : BuildError}
    (h : b.path data head segments x = .error e) :
    ∃ q : PathPrefix, q.names = [] ∧ Refused q segments ∧
      ∀ {segments'} (x'), Refused q segments' →
        ∃ e', b.path data head segments' x' = .error e' := by
  unfold Builder.path at h ⊢
  dsimp only at h ⊢
  split at h
  · next e hfold =>
      refine ⟨⟨_, [], 0⟩, rfl, ⟨e, hfold⟩, fun {segments'} x' hrefused => ?_⟩
      obtain ⟨e', he'⟩ := hrefused
      rw [he']
      exact ⟨_, rfl⟩
  · cases h

/-- A path of one name is not refused. -/
theorem exists_path (b : Builder) (data : Bool) (name : Text) (x : Extent) :
    ∃ path, b.path data none [.ofIdent name none] x = .ok path := by
  cases h : b.path data none [.ofIdent name none] x with
  | ok path => exact ⟨path, rfl⟩
  | error e =>
      obtain ⟨q, hq, hrefused, -⟩ := exists_refused_of_path h
      exact absurd hq (refused_singleton.mp hrefused).2

/-- The path that some segments make, which may end early. -/
theorem follows_path {k k' n n' : Nat} {x : Except Refusal (Parsed (List Segment) k)}
    {x' : Except Refusal (Parsed (List Segment) k')} (hg : Shares K g g') {start : Nat}
    (hstart : K.shared start) {data named : Bool} {head : Option SubExpr} (front : List Segment)
    {f : Parsed (List Segment) k → Path → Parsed Expr n}
    {f' : Parsed (List Segment) k' → Path → Parsed Expr n'}
    (hx : Follows K (Trails K calls) m x x') (hextends : Extends K named x x')
    (hfront : ∀ q q' : PathPrefix, q.names = [] → front.foldlM PathPrefix.add q = .ok q' →
      named = false → q'.names = [])
    (hf : ∀ p path, (f p path).value = .path path ∧ (f p path).cursor = p.cursor)
    (hf' : ∀ p path, (f' p path).value = .path path ∧ (f' p path).cursor = p.cursor) :
    Follows K (Trails K calls) m
      (x >>= fun p =>
        Refusal.lift (g.builder.path data head (front ++ p.value) (g.extent start p.cursor)) >>=
          fun path => .ok (f p path))
      (x' >>= fun p =>
        Refusal.lift (g'.builder.path data head (front ++ p.value) (g'.extent start p.cursor)) >>=
          fun path => .ok (f' p path)) := by
  refine .bind_ends hx (fun p hp htrails => ?_) (fun p p' _ hvalue hgoes _ => ?_)
  · cases hpath : g.builder.path data head (front ++ p.value) (g.extent start p.cursor) with
    | ok path =>
        refine .stops ?_
        show Trails K calls (f p path).cursor
        rw [(hf p path).2]
        exact htrails
    | error e =>
        obtain ⟨hspent, hmore⟩ := hextends hp
        have hwhole : K.whole = false := htrails.elim hspent And.left
        obtain ⟨q, hq, hrefused, hpaths⟩ := exists_refused_of_path hpath
        have hlater : ∃ r', (x' >>= fun p => Refusal.lift (g'.builder.path data head
            (front ++ p.value) (g'.extent start p.cursor)) >>= fun path => .ok (f' p path)) =
            .error r' := by
          cases x' with
          | error r' => exact ⟨r', rfl⟩
          | ok p' =>
              have hrefused' : Refused q (front ++ p'.value) := by
                rcases refused_append.mp hrefused with hrefused | ⟨q', hfold, hrefused⟩
                · exact refused_append.mpr (.inl hrefused)
                · exact refused_append.mpr
                    (.inr ⟨q', hfold, hmore rfl (hfront q q' hq hfold) hrefused⟩)
              obtain ⟨e', he'⟩ := hpaths (g'.extent start p'.cursor) hrefused'
              refine ⟨.rejected e', ?_⟩
              show Refusal.lift (g'.builder.path _ _ _ _) >>= _ = _
              rw [hg.builder, he']
              rfl
        obtain ⟨r', hr'⟩ := hlater
        rw [hr']
        exact .differ hwhole
  · rw [hvalue, hg.builder, hg.extent_eq hgoes hstart]
    refine .lift fun path _ => .ok ?_ ?_
    · rw [(hf p path).1, (hf' p' path).1]
    · rw [(hf p path).2, (hf' p' path).2]
      exact hgoes

/-- In front of a path without a first name no name stands. -/
theorem names_of_foldlM_nil (q q' : PathPrefix) (hq : q.names = [])
    (h : [].foldlM PathPrefix.add q = .ok q') (_ : false = false) : q'.names = [] := by
  cases h
  exact hq

/-- In front of the rest of a path its first name stands, unless it is an operator. -/
theorem names_of_foldlM_singleton {name : Text} (q q' : PathPrefix) (hq : q.names = [])
    (h : [Segment.ofIdent name none].foldlM PathPrefix.add q = .ok q')
    (hname : (!isOperator name) = false) : q'.names = [] := by
  obtain ⟨_, hadd, hnil⟩ := exists_of_bind_eq_ok h
  cases hnil
  rw [Bool.not_eq_false'] at hname
  exact (names_of_add hname hadd).trans hq

/-- What follows a call in parentheses. -/
theorem follows_afterSub (hg : Shares K g g') {start : Nat} (hstart : K.shared start)
    {sub : SubExpr} (h : Goes K ⟨links, calls, .tag⟩ c c') :
    Follows K (Trails K calls) ⟨links, calls, .tag⟩ (afterSub g start sub c)
      (afterSub g' start sub c') := by
  cases h.next (Site.ne_text rfl) with
  | stop hnone =>
      rw [afterSub_eq_stay (atWords_of_rest hnone).separator]
      exact .stops (.inl hnone)
  | @token t s c₁ c₁' h₁ h₁' hnext hnext' _ hgoes =>
      rw [afterSub, afterSub]
      simp only [hnext, hnext']
      cases t with
      | separator kind =>
          exact follows_path hg hstart [] (follows_segments hgoes) (extends_segments hgoes)
            names_of_foldlM_nil (fun _ _ => ⟨rfl, rfl⟩) (fun _ _ => ⟨rfl, rfl⟩)
      | _ => exact .ok rfl h
  | @word t₀ t _ _ _ _ _ _ hnext hnext' hwhole _ _ hoff =>
      rw [afterSub_eq_stay (hoff.atWords_of_next? hnext).separator]
      cases ht : t.isSeparator with
      | false =>
          rw [afterSub_eq_stay (by rw [Cursor.peek?_of_next? hnext']; exact ht)]
          exact .ok rfl h
      | true => exact .stops (hoff.trails hnext hwhole ht)

/-! ## Calls that end early -/

/-- At the end an expression is missed. -/
theorem stops_expr (h : c.rest = []) : Stops K ends (expr g c) := by
  rw [expr, Cursor.next?_eq_none h]
  exact stops_refuse h

/-- At the end the named arguments may be done. -/
theorem stops_pairs (h : c.rest = []) : Stops K Spent (pairs g c) := by
  rw [pairs, Cursor.next?_eq_none h]
  exact h

/-- At the end a call misses its head. -/
theorem stops_call (h : c.rest = []) : Stops K ends (call g c) := by
  rw [call]
  exact (stops_expr h).bind

/-- At the end the items may be done. -/
theorem stops_items (h : c.rest = []) : Stops K Spent (items g c) := by
  rw [items, Cursor.peek?_eq_none h, if_neg nofun]
  exact h

/-- A name or a literal in front of words is an expression.  What a longer one starts with asks
for more. -/
theorem stops_expr_words (h : AtWords c) : Stops K AtWords (expr g c) := by
  obtain ⟨last, rest⟩ := c
  cases rest with
  | nil => exact stops_expr rfl
  | cons l ls =>
      obtain ⟨t, s⟩ := l
      rw [expr]
      cases h with
      | cons hexpr hword hts =>
          have hmore : AtWords ⟨s, ls⟩ := hts
          cases t with
          | ident name =>
              rw [Cursor.next?]
              dsimp only
              rw [moreSegments_eq_stay hmore.separator]
              obtain ⟨path, hpath⟩ :=
                exists_path g.builder false name (g.extent s.start ⟨s, ls⟩)
              show Stops K AtWords (Refusal.lift
                (g.builder.path false none [.ofIdent name none] (g.extent s.start ⟨s, ls⟩)) >>= _)
              rw [hpath]
              exact hmore
          | string | number | boolean | undefined | null => exact hmore
          | data | parenOpen | arrayOpen =>
              cases ls with
              | cons => cases hword nofun
              | nil =>
                  first
                  | exact (stops_segments rfl).commit.bind
                  | exact (stops_call rfl).bind.commit
                  | exact ((stops_items rfl).bind_ends fun p _ hp => (stops_expect hp).bind).commit
          | _ => cases hexpr

/-- Words are arguments. -/
theorem stops_params {c : Cursor} (h : AtWords c) : Stops K Spent (params g c) := by
  rw [params]
  by_cases hne : c.rest = []
  · rw [Cursor.peek?_eq_none hne, if_neg (by simp)]
    exact hne
  obtain ⟨hpair, hexpr⟩ := atWords_of_rest_ne_nil h hne
  rw [if_pos (by rw [hpair, hexpr]; rfl)]
  refine (stops_expr_words h).bind_ends fun p _ hp => ?_
  have hless := p.fits
  exact (stops_params hp).bind_ends fun p _ hp => hp
termination_by c.rest.length

/-- Words are items. -/
theorem stops_items_words {c : Cursor} (h : AtWords c) : Stops K Spent (items g c) := by
  by_cases hne : c.rest = []
  · exact stops_items hne
  rw [items, if_pos (atWords_of_rest_ne_nil h hne).2]
  refine (stops_expr_words h).bind_ends fun p _ hp => ?_
  have hless := p.fits
  exact (stops_items_words hp).bind_ends fun p _ hp => hp
termination_by c.rest.length

/-- Words may be all there is of a call. -/
theorem stops_call_words (h : AtWords c) : Stops K Spent (call g c) := by
  rw [call]
  refine (stops_expr_words h).bind_ends fun p _ hp => ?_
  refine (stops_params hp).bind_ends fun p _ hp => ?_
  exact (stops_pairs hp).bind_ends fun p _ hp => hp

/-! ## Calls -/

/-- A token that is no piece of a call is there in both readings, or missed in both. -/
theorem follows_isToken {expected : Expected} {t : Token} (hm : m.site ≠ .text)
    (ht : m.next t = m') (hpiece : isPiece t = false) (h : Goes K m c c') :
    Follows K Never m' (c.expect expected (Token.isToken? t))
      (c'.expect expected (Token.isToken? t)) := by
  refine follows_expect h hm (fun ht' => ?_) fun {t'} ht' => ?_
  · rw [Token.eq_of_isToken? ht']
    exact ht
  · refine if_neg fun heq => ?_
    rw [heq, hpiece] at ht'
    cases ht'

/-- The named arguments of both readings stand at the same place. -/
theorem hashOf_eq (hg : Shares K g g') {start start' : Nat} (hstart : start' = start)
    (hshared : K.shared start) (h : Goes K m c c') (pairs : List HashPair) :
    g'.hashOf start' c' pairs = g.hashOf start c pairs := by
  cases pairs with
  | nil => rfl
  | cons pair pairs =>
      show some (⟨_, _⟩ : Hash) = some ⟨_, _⟩
      rw [hstart, hg.locate_eq h hshared]

/-- Without a name and `=` there are no pairs. -/
theorem pairs_eq_stay (h : c.atPair = false) : pairs g c = .ok (.stay c []) := by
  rw [pairs]
  split
  · next hnext =>
      split
      · next hnext₂ =>
          rw [Cursor.atPair_of_next? hnext, Cursor.tokens_of_next? hnext₂] at h
          cases h
      · rfl
  · rfl

mutual

/-- **An expression in the first tokens is one in all of them.** At the end of the first
tokens a path may go on. -/
theorem follows_expr (hg : Shares K g g') {links calls : List Bool} {c c' : Cursor}
    (h : Goes K ⟨links, calls, .tag⟩ c c') :
    Follows K (Trails K calls) ⟨links, calls, .tag⟩ (expr g c) (expr g' c') := by
  cases h.next (Site.ne_text rfl) with
  | stop hnone => exact .stops (stops_expr hnone)
  | word hnext _ hwhole _ _ hoff =>
      exact .stops ((stops_expr_words (hoff.atWords_of_next? hnext)).trails hnext hwhole hoff)
  | @token t s c₁ c₁' h₁ h₁' hnext hnext' hstart hgoes =>
      rw [expr, expr]
      simp only [hnext, hnext']
      cases t with
      | ident name =>
          exact follows_path hg hstart [.ofIdent name none]
            (follows_moreSegments (hgoes.weaken (.of_site (.path _))))
            (extends_moreSegments hgoes) names_of_foldlM_singleton (fun _ _ => ⟨rfl, rfl⟩)
            (fun _ _ => ⟨rfl, rfl⟩)
      | data =>
          exact follows_path hg hstart []
            (.commit hgoes stops_segments fun _ => follows_segments hgoes)
            (extends_segments hgoes).commit names_of_foldlM_nil (fun _ _ => ⟨rfl, rfl⟩)
            (fun _ _ => ⟨rfl, rfl⟩)
      | parenOpen =>
          refine .commit hgoes (fun hnone => ?_) fun hne => ?_
          · split
            · exact (stops_pairs hnone).bind_ends fun p _ hp => (stops_expect hp).bind
            · exact (stops_call hnone).bind
          · rcases hgoes.heads rfl with hwords | ⟨hpair, -⟩
            · rw [(atWords_of_rest_ne_nil hwords hne).1]
              exact .stops ((stops_call_words hwords).bind_ends
                fun p _ hp => (stops_expect hp).bind)
            rw [hpair]
            split
            · next hpair =>
                refine .bind_ends (follows_pairs hg (hgoes.behind (.inl hpair)))
                  (fun p _ hp => .stops (stops_expect hp).bind) ?_
                rintro ⟨list, c₂, h₂⟩ ⟨_, c₂', h₂'⟩ - rfl hgoes₂ -
                refine .bind (follows_isToken (m := ⟨links, false :: calls, .pairs⟩)
                  (Site.ne_text rfl) rfl rfl hgoes₂) ?_
                rintro ⟨_, c₃, h₃⟩ ⟨_, c₃', h₃'⟩ - rfl hgoes₃
                refine .ok ?_ hgoes₃
                obtain ⟨hstart', hshared⟩ := hgoes.start_eq (Site.ne_text rfl) hne
                dsimp only
                rw [hg.builder, hg.extent_eq hgoes₃ hstart, hstart', hg.locate_eq hgoes₂ hshared]
                rfl
            · refine .bind_ends (follows_call hg hgoes)
                (fun p _ hp => .stops (stops_expect hp).bind) ?_
              rintro ⟨called, c₂, h₂⟩ ⟨_, c₂', h₂'⟩ - rfl hgoes₂ -
              refine .bind (follows_isToken (m := ⟨links, false :: calls, .pairs⟩)
                (Site.ne_text rfl) rfl rfl hgoes₂) ?_
              rintro ⟨_, c₃, h₃⟩ ⟨_, c₃', h₃'⟩ - rfl hgoes₃
              dsimp only
              rw [hg.builder, hg.extent_eq hgoes₃ hstart, hgoes₃.last,
                hg.slice hstart hgoes₃.shared]
              refine .bind_ends (follows_afterSub hg hstart hgoes₃)
                (fun p _ hp => .stops hp) ?_
              rintro ⟨e, c₄, h₄⟩ ⟨_, c₄', h₄'⟩ - rfl hgoes₄ -
              exact .ok rfl hgoes₄
      | arrayOpen =>
          refine .commit hgoes (fun hnone => ?_) fun hne => ?_
          · exact (stops_items hnone).bind_ends fun p _ hp => (stops_expect hp).bind
          · refine .bind_ends (follows_items hg hgoes)
              (fun p _ hp => .stops (stops_expect hp).bind) ?_
            rintro ⟨list, c₂, h₂⟩ ⟨_, c₂', h₂'⟩ - rfl hgoes₂ -
            refine .bind (follows_isToken (m := ⟨links, false :: calls, .tag⟩)
              (Site.ne_text rfl) rfl rfl hgoes₂) ?_
            rintro ⟨_, c₃, h₃⟩ ⟨_, c₃', h₃'⟩ - rfl hgoes₃
            refine .ok ?_ hgoes₃
            dsimp only
            rw [hg.builder, hg.extent_eq hgoes₃ hstart]
            rfl
      | string | number | boolean | undefined | null =>
          refine .ok ?_ hgoes
          dsimp only
          rw [hg.builder, hg.extent_eq hgoes hstart]
      | _ => exact follows_refuse hnext hnext' hstart hgoes
termination_by 2 * c.rest.length

/-- **A call in the first tokens is one in all of them.** At the end of the first tokens
it may go on. -/
theorem follows_call (hg : Shares K g g') {links calls : List Bool} {c c' : Cursor}
    (h : Goes K ⟨links, calls, .tag⟩ c c') :
    Follows K Spent ⟨links, calls, .pairs⟩ (call g c) (call g' c') := by
  rw [call, call]
  refine .bind_ends (follows_expr hg h) (fun p _ hp => .stops ?_) ?_
  · refine (stops_params hp.atWords).bind_ends fun p _ hp => ?_
    exact (stops_pairs hp).bind_ends fun p _ hp => hp
  rintro ⟨head, c₁, h₁⟩ ⟨_, c₁', h₁'⟩ - rfl hgoes -
  refine .bind_ends (follows_params hg hgoes) (fun p _ hp => .stops ?_) ?_
  · exact (stops_pairs hp).bind_ends fun p _ hp => hp
  rintro ⟨list, c₂, h₂⟩ ⟨_, c₂', h₂'⟩ - rfl hgoes₂ hne
  refine .bind_ends (follows_pairs hg hgoes₂) (fun p _ hp => .stops hp) ?_
  rintro ⟨args, c₃, h₃⟩ ⟨_, c₃', h₃'⟩ - rfl hgoes₃ -
  refine .ok ?_ hgoes₃
  obtain ⟨hstart, hshared⟩ := hgoes₂.start_eq (Site.ne_text rfl) hne
  dsimp only
  rw [hashOf_eq hg hstart hshared hgoes₃]
  rfl
termination_by 2 * c.rest.length + 1

/-- Arguments in the first tokens are arguments in all of them. A key among them must be
whole. -/
theorem follows_params (hg : Shares K g g') {links calls : List Bool} {c c' : Cursor}
    (h : Goes K ⟨links, calls, .tag⟩ c c') :
    Follows K Spent ⟨links, calls, .pairs⟩ (params g c) (params g' c') := by
  rcases h.heads rfl with hwords | ⟨hpair, hpeek⟩
  · exact .stops (stops_params hwords)
  · rw [params, params, hpair, hpeek]
    split
    · refine .bind_ends (follows_expr hg h) (fun p _ hp => .stops ?_) ?_
      · exact (stops_params hp.atWords).bind_ends fun p _ hp => hp
      rintro ⟨e, c₁, h₁⟩ ⟨_, c₁', h₁'⟩ - rfl hgoes -
      refine .bind_ends (follows_params hg hgoes) (fun p _ hp => .stops hp) ?_
      rintro ⟨more, c₂, h₂⟩ ⟨_, c₂', h₂'⟩ - rfl hgoes -
      exact .ok rfl hgoes
    · next hend =>
        refine .ok rfl (h.behind ?_)
        cases hc : c.atPair with
        | true => exact .inl rfl
        | false =>
            rw [hc] at hend
            exact .inr (Bool.eq_false_iff.mpr hend)
termination_by 2 * c.rest.length + 1

/-- The items of a list in the first tokens are items in all of them. -/
theorem follows_items (hg : Shares K g g') {links calls : List Bool} {c c' : Cursor}
    (h : Goes K ⟨links, calls, .tag⟩ c c') :
    Follows K Spent ⟨links, calls, .tag⟩ (items g c) (items g' c') := by
  rcases h.heads rfl with hwords | ⟨-, hpeek⟩
  · exact .stops (stops_items_words hwords)
  · rw [items, items, hpeek]
    split
    · refine .bind_ends (follows_expr hg h) (fun p _ hp => .stops ?_) ?_
      · exact (stops_items_words hp.atWords).bind_ends fun p _ hp => hp
      rintro ⟨e, c₁, h₁⟩ ⟨_, c₁', h₁'⟩ - rfl hgoes -
      refine .bind_ends (follows_items hg hgoes) (fun p _ hp => .stops hp) ?_
      rintro ⟨more, c₂, h₂⟩ ⟨_, c₂', h₂'⟩ - rfl hgoes -
      exact .ok rfl hgoes
    · exact .ok rfl h
termination_by 2 * c.rest.length + 1

/-- Behind the first named argument, words are keys and values by turns, in both readings. -/
theorem follows_pairs (hg : Shares K g g') {links calls : List Bool} {c c' : Cursor}
    (h : Goes K ⟨links, calls, .pairs⟩ c c') :
    Follows K Spent ⟨links, calls, .pairs⟩ (pairs g c) (pairs g' c') := by
  by_cases hne : c.rest = []
  · exact .stops (stops_pairs hne)
  have hpair := h.atPair_eq rfl (Stage.noParams_pairs _ _) hne
  cases hc : c.atPair with
  | false =>
      rw [pairs_eq_stay hc, pairs_eq_stay (hpair.trans hc)]
      exact .ok rfl h
  | true =>
      cases h.next (Site.ne_text rfl) with
      | stop hnone => exact absurd hnone hne
      | word hnext _ _ _ _ hoff =>
          have hwords := hoff.atWords_of_next? hnext
          cases hc.symm.trans (atWords_of_rest_ne_nil hwords hne).1
      | @token t s c₁ c₁' h₁ h₁' hnext hnext' hstart hgoes =>
          rw [Cursor.atPair_of_next? hnext] at hc
          cases t with
          | ident key =>
              cases hgoes.next (Site.ne_text rfl) with
              | stop hnone =>
                  rw [Cursor.tokens, hnone] at hc
                  cases hc
              | word hnext₂ _ _ _ _ hoff =>
                  rw [Cursor.tokens_of_next? hnext₂,
                    startsPair_piece (isPiece_of_isWord hoff.isWord)] at hc
                  cases hc
              | @token t₂ s₂ c₂ c₂' h₂ h₂' hnext₂ hnext₂' _ hgoes₂ =>
                  rw [Cursor.tokens_of_next? hnext₂] at hc
                  rw [pairs, pairs]
                  simp only [hnext, hnext', hnext₂, hnext₂']
                  cases t₂ with
                  | equals =>
                      refine .bind_ends (.commit hgoes₂ stops_expr fun _ => follows_expr hg hgoes₂)
                        (fun p _ hp => .stops ?_) ?_
                      · exact (stops_pairs (hp.rest_eq_nil rfl)).bind_ends fun p _ hp => hp
                      rintro ⟨value, c₃, h₃⟩ ⟨_, c₃', h₃'⟩ - rfl hgoes₃ -
                      refine .bind_ends (follows_pairs hg (hgoes₃.weaken (.argument links calls)))
                        (fun p _ hp => .stops hp) ?_
                      rintro ⟨more, c₄, h₄⟩ ⟨_, c₄', h₄'⟩ - rfl hgoes₄ -
                      refine .ok ?_ hgoes₄
                      show _ :: _ = _ :: _
                      rw [hg.locate_eq hgoes₃ hstart]
                  | _ => cases hc
          | _ => cases hc
termination_by 2 * c.rest.length + 1

end

end Grammar
end Stache
