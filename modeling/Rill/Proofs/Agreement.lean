import Rill.Proofs.Relabel
import Rill.Proofs.Stream

/-!
# Parsers that see the same words

Two parsers are alike if the tokens ahead of them say the same, whatever their ranges are and
whatever was left out between them (`Parser.Alike`). A step of parsing looks at nothing else, so on
alike parsers it either succeeds twice, with results that differ in ranges only, or fails twice with
the same fault. `Parse.Agree` says this of two steps, and `Agree.bind` composes it.

The two steps need not have the same bound on their nesting : bounds that suffice for the tokens
ahead do not show in the result. That is why `Agree` excludes the fault of a stalled parser, and why
its results are followed by the number of tokens that are left (`Parser.left`).
-/

namespace Rill

/-- What an item holds, apart from where it stands. -/
def Item.content : Item → Except LexFault Lexeme
  | .ok t => .ok t.lexeme
  | .error e => .error e.fault

/-- Items that hold the same start alike : with nothing, with a token or with a fault. -/
theorem Item.head_cases {items items' : List Item} (h : items.map content = items'.map content) :
    (items.head? = none ∧ items'.head? = none) ∨
      (∃ l r r', items.head? = some (.ok ⟨l, r⟩) ∧ items'.head? = some (.ok ⟨l, r'⟩)) ∨
      ∃ f r r', items.head? = some (.error ⟨f, r⟩) ∧ items'.head? = some (.error ⟨f, r'⟩) := by
  cases items with
  | nil =>
    obtain rfl : items' = [] := by simpa using h.symm
    exact .inl ⟨rfl, rfl⟩
  | cons item rest =>
    obtain ⟨item', rest', rfl, hitem, -⟩ : ∃ i is, items' = i :: is ∧ i.content = item.content ∧
        is.map content = rest.map content := by simpa [List.map_eq_cons_iff] using h.symm
    cases item with
    | ok t =>
      cases item' with
      | error e' => simp [content] at hitem
      | ok t' =>
        obtain ⟨l, r⟩ := t
        obtain ⟨l', r'⟩ := t'
        obtain rfl : l' = l := by simpa [content] using hitem
        exact .inr (.inl ⟨l', r, r', rfl, rfl⟩)
    | error e =>
      cases item' with
      | ok t' => simp [content] at hitem
      | error e' =>
        obtain ⟨f, r⟩ := e
        obtain ⟨f', r'⟩ := e'
        obtain rfl : f' = f := by simpa [content] using hitem
        exact .inr (.inr ⟨f', r, r', rfl, rfl⟩)

namespace Parser

/-- The number of items that a parser has not taken yet. -/
def left (p : Parser) : Nat := p.ahead.length

/-- Parsers that differ only in where the tokens ahead stand. -/
structure Alike (p p' : Parser) : Prop where
  current : p.current.map Token.lexeme = p'.current.map Token.lexeme
  upcoming : p.upcoming.remaining.map Item.content = p'.upcoming.remaining.map Item.content
  names : p.names = p'.names
  scopes : p.scopes = p'.scopes
  scope : p.scope = p'.scope
  nextDecl : p.nextDecl = p'.nextDecl

/-- Two steps on parsers like `p` gave results related by `R` and left alike parsers, at least
`k` items further on. -/
def After {α : Type} (p : Parser) (k : Nat) (R : α → α → Prop) (a a' : α) (q q' : Parser) : Prop :=
  R a a' ∧ q.Alike q' ∧ q.left + k ≤ p.left

namespace Alike

variable {p p' : Parser}

/-- Alike parsers have the same number of items left. -/
theorem left_eq (h : p.Alike p') : p.left = p'.left := by
  have hcurrent := h.current
  have hlen : p.upcoming.remaining.length = p'.upcoming.remaining.length := by
    simpa using congrArg List.length h.upcoming
  cases hc : p.current <;> cases hc' : p'.current <;> simp_all [left, ahead]

/-- Alike parsers have current tokens that say the same, or none. -/
theorem current_cases (h : p.Alike p') :
    (p.current = none ∧ p'.current = none) ∨
      ∃ l r r', p.current = some ⟨l, r⟩ ∧ p'.current = some ⟨l, r'⟩ := by
  have hcurrent := h.current
  cases hc : p.current with
  | none => exact .inl ⟨rfl, by simpa [hc] using hcurrent.symm⟩
  | some t =>
    obtain ⟨t', hc', ht⟩ : ∃ t', p'.current = some t' ∧ t'.lexeme = t.lexeme := by
      simpa [hc] using hcurrent.symm
    exact .inr ⟨t.lexeme, t.range, t'.range, rfl, by rw [hc', ← ht]⟩

theorem isPunctuation (h : p.Alike p') (text : String) :
    p.isPunctuation text = p'.isPunctuation text := by
  obtain ⟨hc, hc'⟩ | ⟨l, r, r', hc, hc'⟩ := h.current_cases <;>
    simp [Parser.isPunctuation, hc, hc', Token.isPunctuation]

theorem isIdentifier (h : p.Alike p') (name : String) :
    p.isIdentifier name = p'.isIdentifier name := by
  obtain ⟨hc, hc'⟩ | ⟨l, r, r', hc, hc'⟩ := h.current_cases <;>
    simp [Parser.isIdentifier, hc, hc', Token.isIdentifier]

theorem isKind (h : p.Alike p') (kind : TokenKind) : p.isKind kind = p'.isKind kind := by
  obtain ⟨hc, hc'⟩ | ⟨l, r, r', hc, hc'⟩ := h.current_cases <;>
    simp [Parser.isKind, hc, hc', Token.kind]

theorem isEmpty (h : p.Alike p') : p.isEmpty = p'.isEmpty := by
  obtain ⟨hc, hc'⟩ | ⟨l, r, r', hc, hc'⟩ := h.current_cases <;> simp [Parser.isEmpty, hc, hc']

theorem found (h : p.Alike p') : p.found = p'.found := by
  obtain ⟨hc, hc'⟩ | ⟨l, r, r', hc, hc'⟩ := h.current_cases <;>
    simp [Parser.found, hc, hc', Token.label]

/-- Alike parsers are at the same form of statement. -/
theorem formWord? (h : p.Alike p') : p.formWord? = p'.formWord? := by
  obtain ⟨hc, hc'⟩ | ⟨l, r, r', hc, hc'⟩ := h.current_cases
  · simp [Parser.formWord?, hc, hc']
  · cases l <;> simp [Parser.formWord?, hc, hc']

/-- Alike parsers have an identifier after the current token or have none. -/
theorem identifierFollows (h : p.Alike p') : p.identifierFollows = p'.identifierFollows := by
  simp only [Parser.identifierFollows, Filter.peek_eq]
  obtain ⟨hr, hr'⟩ | ⟨l, r, r', hr, hr'⟩ | ⟨f, r, r', hr, hr'⟩ := Item.head_cases h.upcoming <;>
    simp [hr, hr', Token.kind]

/-- Alike parsers stay alike when both are moved past a token. -/
theorem moved (h : p.Alike p') : p.moved.Alike p'.moved where
  current := by
    simp only [Parser.moved]
    obtain ⟨hr, hr'⟩ | ⟨l, r, r', hr, hr'⟩ | ⟨f, r, r', hr, hr'⟩ := Item.head_cases h.upcoming <;>
      simp [hr, hr']
  upcoming := by simp [Parser.moved, h.upcoming]
  names := h.names
  scopes := h.scopes
  scope := h.scope
  nextDecl := h.nextDecl

end Alike

end Parser

namespace Parse

/-- Two steps agree on two parsers : both succeed as `post` says, or both fail with one fault, which
is not that of a stalled parser. -/
def Agree {α : Type} (act act' : Parse α) (p p' : Parser) (post : α → α → Parser → Parser → Prop) :
    Prop :=
  match act p, act' p' with
  | .ok a q, .ok a' q' => post a a' q q'
  | .error e _, .error e' _ => e.fault = e'.fault ∧ e.fault ≠ .stalled
  | _, _ => False

/-! ## Composing steps -/

section

variable {α β : Type} {p p' : Parser} {act act' : Parse α}

/-- What is known of the results may be weakened. -/
theorem Agree.mono {post post' : α → α → Parser → Parser → Prop} (h : Agree act act' p p' post)
    (himp : ∀ a a' q q', post a a' q q' → post' a a' q q') : Agree act act' p p' post' := by
  unfold Agree at h ⊢
  split at h
  · exact himp _ _ _ _ h
  · exact h
  · exact h.elim

/-- Steps in sequence agree if the first ones do and the second ones do after them. -/
theorem Agree.bind {f f' : α → Parse β} {mid : α → α → Parser → Parser → Prop}
    {post : β → β → Parser → Parser → Prop} (h : Agree act act' p p' mid)
    (hf : ∀ a a' q q', mid a a' q q' → Agree (f a) (f' a') q q' post) :
    Agree (act >>= f) (act' >>= f') p p' post := by
  unfold Agree at h
  split at h
  · rename_i a q a' q' hact hact'
    have hnext := hf a a' q q' h
    simpa [Agree, Bind.bind, EStateM.bind, hact, hact'] using hnext
  · rename_i e q e' q' hact hact'
    simpa [Agree, Bind.bind, EStateM.bind, hact, hact'] using h
  · exact h.elim

theorem Agree.map {f : α → β} {post : β → β → Parser → Parser → Prop}
    (h : Agree act act' p p' fun a a' q q' => post (f a) (f a') q q') :
    Agree (f <$> act) (f <$> act') p p' post := by
  unfold Agree at h
  split at h
  · rename_i a q a' q' hact hact'
    simpa [Agree, Functor.map, EStateM.map, hact, hact'] using h
  · rename_i e q e' q' hact hact'
    simpa [Agree, Functor.map, EStateM.map, hact, hact'] using h
  · exact h.elim

/-- What is left after a step on `q` counts from an earlier parser `p` too. -/
theorem Agree.after {q q' : Parser} {R : α → α → Prop} {j k : Nat}
    (h : Agree act act' q q' (q.After j R)) (hleft : q.left + k ≤ p.left + j) :
    Agree act act' q q' (p.After k R) := by
  refine h.mono ?_
  rintro a a' r r' ⟨hR, hr, hle⟩
  exact ⟨hR, hr, by omega⟩

theorem Agree.pure {a a' : α} {post : α → α → Parser → Parser → Prop} (h : post a a' p p') :
    Agree (Pure.pure a) (Pure.pure a') p p' post := h

theorem Agree.get {f f' : Parser → Parse α} {post : α → α → Parser → Parser → Prop}
    (h : Agree (f p) (f' p') p p' post) :
    Agree (MonadState.get >>= f) (MonadState.get >>= f') p p' post := h

/-- A choice by a test that both parsers pass or fail. -/
theorem Agree.ite {b b' : Bool} {other other' : Parse α} {post : α → α → Parser → Parser → Prop}
    (h : b = b') (hpos : b = true → Agree act act' p p' post)
    (hneg : b = false → Agree other other' p p' post) :
    Agree (if b then act else other) (if b' then act' else other') p p' post := by
  subst h
  cases b with
  | true => exact hpos rfl
  | false => exact hneg rfl

/-- Two failures with one fault. -/
theorem agree_error {e e' : ParseError} {post : α → α → Parser → Parser → Prop}
    (h : act p = .error e p) (h' : act' p' = .error e' p') (hfault : e.fault = e'.fault)
    (hstalled : e.fault ≠ .stalled) : Agree act act' p p' post := by
  simp only [Agree, h, h']
  exact ⟨hfault, hstalled⟩

/-- Alike parsers miss the same thing and find the same token in its place. -/
theorem agree_failExpected (h : p.Alike p') (what : String)
    {post : α → α → Parser → Parser → Prop} :
    Agree (failExpected what) (failExpected what) p p' post :=
  agree_error rfl rfl (by simp [Parser.expected, h.found]) (by simp [Parser.expected])

end

/-! ## Steps -/

section

variable {p p' : Parser}

/-- Tokens that say the same. -/
abbrev SameToken (t t' : Token) : Prop := t.lexeme = t'.lexeme

/-- Both parsers take the same token. -/
theorem agree_advance (h : p.Alike p') {l : Lexeme} {r r' : Range} (hc : p.current = some ⟨l, r⟩)
    (hc' : p'.current = some ⟨l, r'⟩) :
    Agree advance advance p p' (p.After 1 fun a a' => a = some ⟨l, r⟩ ∧ a' = some ⟨l, r'⟩) := by
  have hleft := Parser.ahead_of_current hc
  simp only [Agree, advance_eq]
  obtain ⟨hr, hr'⟩ | ⟨l, s, s', hr, hr'⟩ | ⟨f, s, s', hr, hr'⟩ := Item.head_cases h.upcoming
  · simp only [hr, hr']
    refine ⟨⟨hc, hc'⟩, h.moved, ?_⟩
    simp [Parser.left, Parser.ahead, Parser.moved, hr, hc]
  · simp only [hr, hr']
    refine ⟨⟨hc, hc'⟩, h.moved, ?_⟩
    have hmoved : p.moved.ahead = p.upcoming.remaining :=
      Parser.ahead_moved hleft fun e rest hrest => by simp [hrest] at hr
    simp [Parser.left, hmoved, hleft]
  · simp only [hr, hr']
    exact ⟨rfl, by simp [LexError.toParseError]⟩

/-- Whether a token is taken depends on what it says and not on where it stands. -/
theorem agree_takeIf (h : p.Alike p') (test : Lexeme → Bool) :
    Agree (takeIf fun t => test t.lexeme) (takeIf fun t => test t.lexeme) p p' fun a a' q q' =>
      (∃ t t', a = some t ∧ a' = some t' ∧ p.After 1 SameToken t t' q q') ∨
        a = none ∧ a' = none ∧ q = p ∧ q' = p' := by
  refine Agree.get ?_
  obtain ⟨hc, hc'⟩ | ⟨l, r, r', hc, hc'⟩ := h.current_cases
  · rw [hc, hc']
    exact Agree.pure (.inr ⟨rfl, rfl, rfl, rfl⟩)
  · simp only [hc, hc', Option.any_some]
    by_cases ht : test l
    · simp only [ht, if_true]
      refine (agree_advance h hc hc').mono ?_
      rintro a a' q q' ⟨⟨rfl, rfl⟩, hq⟩
      exact .inl ⟨_, _, rfl, rfl, rfl, hq⟩
    · simp only [ht]
      exact Agree.pure (.inr ⟨rfl, rfl, rfl, rfl⟩)

/-- A required token is taken from both parsers or missed in both. -/
theorem agree_require (h : p.Alike p') (test : Lexeme → Bool) (what : String) :
    Agree (require (fun t => test t.lexeme) what) (require (fun t => test t.lexeme) what) p p'
      (p.After 1 SameToken) := by
  refine (agree_takeIf h test).bind ?_
  rintro a a' q q' (⟨t, t', rfl, rfl, hq⟩ | ⟨rfl, rfl, rfl, rfl⟩)
  · exact Agree.pure hq
  · exact agree_failExpected h what

theorem agree_punctuation (h : p.Alike p') (text : String) :
    Agree (punctuation text) (punctuation text) p p' (p.After 1 SameToken) :=
  agree_require h (· == .punctuation text) _

theorem agree_word (h : p.Alike p') (text : String) :
    Agree (word text) (word text) p p' (p.After 1 SameToken) :=
  agree_require h (· == .identifier text) _

/-- A mark is there in both parsers or in none. -/
theorem agree_accept (h : p.Alike p') (text : String) :
    Agree (accept text) (accept text) p p' (p.After 0 Eq) := by
  refine Agree.get (Agree.ite (h.isPunctuation text) (fun ht => ?_) fun _ => ?_)
  · obtain ⟨hc, -⟩ | ⟨l, r, r', hc, hc'⟩ := h.current_cases
    · simp [Parser.isPunctuation, hc] at ht
    · refine (agree_advance h hc hc').bind ?_
      rintro a a' q q' ⟨-, hq, hleft⟩
      exact Agree.pure ⟨rfl, hq, by omega⟩
  · exact Agree.pure ⟨rfl, h, Nat.le_refl _⟩

/-- Names that are written alike. -/
abbrev SameName (i i' : Ident) : Prop := i.name = i'.name

/-- Names that are written alike are equal without their ranges. -/
theorem SameName.bare_eq {i i' : Ident} (h : SameName i i') :
    i.mapRange (fun _ => .unknown) = i'.mapRange fun _ => .unknown :=
  congrArg (Ident.mk · .unknown) h

theorem agree_checkIdentifier (h : p.Alike p') :
    Agree checkIdentifier checkIdentifier p p'
      fun _ _ q q' => q = p ∧ q' = p' ∧ p.isKind .identifier := by
  refine Agree.get (Agree.ite (h.isKind _) (fun hkind => ?_) fun _ => ?_)
  · exact Agree.pure ⟨rfl, rfl, hkind⟩
  · exact agree_failExpected h _

/-- Both parsers take a name that is written alike, or miss one. -/
theorem agree_identifier (h : p.Alike p') :
    Agree identifier identifier p p' (p.After 1 SameName) := by
  refine (agree_checkIdentifier h).bind ?_
  rintro _ _ q q' ⟨rfl, rfl, hkind⟩
  obtain ⟨hc, -⟩ | ⟨l, r, r', hc, hc'⟩ := h.current_cases
  · simp [Parser.isKind, hc] at hkind
  · refine (agree_advance h hc hc').bind ?_
    rintro _ _ s s' ⟨⟨rfl, rfl⟩, hs, hleft⟩
    exact ⟨rfl, { hs with names := by simp [hs.names] }, hleft⟩

/-- To declare the same name keeps parsers alike. -/
theorem agree_declare (h : p.Alike p') {i i' : Ident} (hi : SameName i i') :
    Agree (declare i) (declare i') p p' (p.After 0 Eq) := by
  refine ⟨by rw [h.nextDecl], { h with scopes := ?_, nextDecl := by simp [h.nextDecl] },
    Nat.le_refl _⟩
  simp only [h.scopes, h.scope, h.nextDecl]
  rw [show i.name = i'.name from hi]

theorem agree_within {α : Type} {act act' : Parse α} {p₀ : Parser} {k : Nat} {R : α → α → Prop}
    (h : p.Alike p') (scope : ScopeId)
    (hact : ∀ q q', q.Alike q' → q.left = p.left → Agree act act' q q' (p₀.After k R)) :
    Agree (within scope act) (within scope act') p p' (p₀.After k R) := by
  have hact := hact { p with scope := scope } { p' with scope := scope } { h with scope := rfl } rfl
  unfold Agree at hact
  unfold Agree within
  split at hact
  · rename_i a q a' q' heq heq'
    obtain ⟨hR, hq, hleft⟩ := hact
    simp only [heq, heq']
    exact ⟨hR, { hq with scope := h.scope }, hleft⟩
  · rename_i e q e' q' heq heq'
    simp only [heq, heq']
    exact hact
  · exact hact.elim

/-- Steps in a new scope agree if they do in every scope. -/
theorem agree_opening {α : Type} {act act' : ScopeId → Parse α} {p₀ : Parser} {k : Nat}
    {R : α → α → Prop} (h : p.Alike p') (kind : ScopeKind) {owner owner' : Option DeclId}
    (howner : owner = owner')
    (hact : ∀ id q q', q.Alike q' → q.left = p.left →
      Agree (act id) (act' id) q q' (p₀.After k R)) :
    Agree (opening kind owner act) (opening kind owner' act') p p' (p₀.After k R) := by
  subst howner
  obtain ⟨id, scopes, hpush⟩ : ∃ id scopes, p.scopes.push kind p.scope owner = (id, scopes) :=
    ⟨_, _, rfl⟩
  have hpush' : p'.scopes.push kind p'.scope owner = (id, scopes) := by
    rw [← hpush, h.scopes, h.scope]
  have hopened : ({ p with scopes := scopes } : Parser).Alike { p' with scopes := scopes } :=
    { h with scopes := rfl }
  unfold opening
  refine Agree.get ?_
  simp only [hpush, hpush']
  exact agree_within hopened id fun q q' hq hleft => hact id q q' hq hleft

end

/-! ## Repetition -/

section

variable {α β : Type} (key : α → β) {item item' : Parse α} {stop : Parser → Bool} {p p' : Parser}

/-- Items of which at most `m` are left agree, up to `key`, and each takes something. -/
def ItemsAgree (item item' : Parse α) (key : α → β) (m : Nat) : Prop :=
  ∀ ⦃q q' : Parser⦄, q.Alike q' → q.left ≤ m →
    Agree item item' q q' (q.After 1 fun x x' => key x = key x')

/-- Items up to a stop agree, and more steps than there are items left do not matter. -/
theorem agree_itemsUntil (hstop : ∀ {q q' : Parser}, q.Alike q' → stop q = stop q') {m : Nat}
    (hitem : ItemsAgree item item' key m) {n : Nat} (n' : Nat) (h : p.Alike p') (hm : p.left ≤ m)
    (hn : p.left < n) (hn' : p.left < n') :
    Agree (itemsUntil stop item n) (itemsUntil stop item' n') p p'
      (p.After 0 fun xs xs' => xs.map key = xs'.map key) := by
  induction n generalizing n' p p' with
  | zero => exact absurd hn (Nat.not_lt_zero _)
  | succ n ih =>
    obtain ⟨n', rfl⟩ : ∃ k, n' = k + 1 := ⟨n' - 1, by omega⟩
    simp only [itemsUntil]
    refine Agree.get (Agree.ite (hstop h) (fun _ => ?_) fun _ => ?_)
    · exact Agree.pure ⟨rfl, h, Nat.le_refl _⟩
    · refine (hitem h hm).bind ?_
      rintro x x' q q' ⟨hx, hq, hleft⟩
      refine (ih n' hq (by omega) (by omega) (by omega)).bind ?_
      rintro xs xs' r r' ⟨hxs, hr, hleft'⟩
      exact Agree.pure ⟨by simp [hx, hxs], hr, by omega⟩

theorem agree_separatedItems (hstop : ∀ {q q' : Parser}, q.Alike q' → stop q = stop q') {m : Nat}
    (hitem : ItemsAgree item item' key m) {n : Nat} (n' : Nat) (h : p.Alike p') (hm : p.left ≤ m)
    (hn : p.left < n) (hn' : p.left < n') :
    Agree (separatedItems item stop (accept ",") n) (separatedItems item' stop (accept ",") n') p p'
      (p.After 0 fun xs xs' => xs.map key = xs'.map key) := by
  induction n generalizing n' p p' with
  | zero => exact absurd hn (Nat.not_lt_zero _)
  | succ n ih =>
    obtain ⟨n', rfl⟩ : ∃ k, n' = k + 1 := ⟨n' - 1, by omega⟩
    simp only [separatedItems]
    refine (hitem h hm).bind ?_
    rintro x x' q q' ⟨hx, hq, hleft⟩
    refine Agree.get (Agree.ite (hstop hq) (fun _ => ?_) fun _ => ?_)
    · exact Agree.pure ⟨by simp [hx], hq, by omega⟩
    · refine (agree_accept hq ",").bind ?_
      rintro b b' r r' ⟨rfl, hr, hleft'⟩
      cases b with
      | true =>
        refine (ih n' hr (by omega) (by omega) (by omega)).bind ?_
        rintro xs xs' s s' ⟨hxs, hs, hleft''⟩
        exact Agree.pure ⟨by simp [hx, hxs], hs, by omega⟩
      | false => exact agree_failExpected hr _

/-- Lists with commas agree, and more steps than there are items left do not matter. -/
theorem agree_separated (hstop : ∀ {q q' : Parser}, q.Alike q' → stop q = stop q') {m : Nat}
    (hitem : ItemsAgree item item' key m) {n : Nat} (n' : Nat) (h : p.Alike p') (hm : p.left ≤ m)
    (hn : p.left < n) (hn' : p.left < n') :
    Agree (separated item stop (accept ",") n) (separated item' stop (accept ",") n') p p'
      (p.After 0 fun xs xs' => xs.map key = xs'.map key) := by
  refine Agree.get (Agree.ite (hstop h) (fun _ => ?_) fun _ => ?_)
  · exact Agree.pure ⟨rfl, h, Nat.le_refl _⟩
  · exact agree_separatedItems key hstop hitem n' h hm hn hn'

end

/-! ## Expressions -/

/-- Expressions that differ in ranges only. -/
abbrev SameExpr (e e' : Expr) : Prop := e.bare = e'.bare

/-- Reading expressions with the bound `n` on nesting agrees with reading them with any other bound,
if both suffice for the tokens ahead. A primary expression may nest once without taking a token, an
operand twice, and a whole expression three times. -/
structure ExprAgree (ops : OperatorTable) (n : Nat) : Prop where
  binary (n' : Nat) {bound : Nat} {p p' : Parser} (h : p.Alike p') (hn : 3 * p.left + 3 ≤ n)
    (hn' : 3 * p.left + 3 ≤ n') :
    Agree (binary ops n bound) (binary ops n' bound) p p' (p.After 1 SameExpr)
  climb (n' : Nat) {bound : Nat} {p p' : Parser} {lhs lhs' : Expr} (h : p.Alike p')
    (hn : 3 * p.left + 1 ≤ n)
    (hn' : 3 * p.left + 1 ≤ n') (hlhs : SameExpr lhs lhs') :
    Agree (climb ops n lhs bound) (climb ops n' lhs' bound) p p' (p.After 0 SameExpr)
  operand (n' : Nat) {p p' : Parser} (h : p.Alike p') (hn : 3 * p.left + 2 ≤ n)
    (hn' : 3 * p.left + 2 ≤ n') :
    Agree (operand ops n) (operand ops n') p p' (p.After 1 SameExpr)
  suffixes (n' : Nat) {p p' : Parser} {e e' : Expr} (h : p.Alike p') (hn : 3 * p.left + 1 ≤ n)
    (hn' : 3 * p.left + 1 ≤ n') (he : SameExpr e e') :
    Agree (suffixes ops n e) (suffixes ops n' e') p p' (p.After 0 SameExpr)
  primary (n' : Nat) {p p' : Parser} (h : p.Alike p') (hn : 3 * p.left + 1 ≤ n)
    (hn' : 3 * p.left + 1 ≤ n') :
    Agree (primary ops n) (primary ops n') p p' (p.After 1 SameExpr)

section

variable {ops : OperatorTable} {n n' bound : Nat} {p p' : Parser}

theorem agree_binary (ih : ExprAgree ops n) (h : p.Alike p') (hn : 3 * p.left + 3 ≤ n + 1)
    (hn' : 3 * p.left + 3 ≤ n' + 1) :
    Agree (binary ops (n + 1) bound) (binary ops (n' + 1) bound) p p' (p.After 1 SameExpr) := by
  simp only [binary]
  refine (ih.operand n' h (by omega) (by omega)).bind ?_
  rintro lhs lhs' q q' ⟨hlhs, hq, hleft⟩
  exact (ih.climb n' hq (by omega) (by omega) hlhs).after (by omega)

/-- Between operands, a token that is an operator is there on both sides or on neither. -/
theorem operator?_cases (h : p.Alike p') :
    (p.operator? = none ∧ p'.operator? = none) ∨
      ∃ text r r', p.operator? = some text ∧ p'.operator? = some text ∧
        p.current = some ⟨.punctuation text, r⟩ ∧ p'.current = some ⟨.punctuation text, r'⟩ := by
  obtain ⟨hc, hc'⟩ | ⟨l, r, r', hc, hc'⟩ := h.current_cases
  · exact .inl (by simp [Parser.operator?, hc, hc'])
  · cases l with
    | punctuation text => exact .inr ⟨text, r, r', by simp [Parser.operator?, hc, hc']⟩
    | _ => exact .inl (by simp [Parser.operator?, hc, hc'])

/-- The climb over infix operators meets the same operators, so it adds the same operands. -/
theorem agree_climb (ih : ExprAgree ops n) {lhs lhs' : Expr} (h : p.Alike p')
    (hn : 3 * p.left + 1 ≤ n + 1) (hn' : 3 * p.left + 1 ≤ n' + 1) (hlhs : SameExpr lhs lhs') :
    Agree (climb ops (n + 1) lhs bound) (climb ops (n' + 1) lhs' bound) p p'
      (p.After 0 SameExpr) := by
  simp only [climb]
  refine Agree.get ?_
  simp only [ruleHere?]
  obtain ⟨hop, hop'⟩ | ⟨text, r, r', hop, hop', hc, hc'⟩ := operator?_cases h
  · simp only [hop, hop', Option.bind_none]
    exact Agree.pure ⟨hlhs, h, Nat.le_refl _⟩
  · simp only [hop, hop', Option.bind_some]
    cases ops.between? text with
    | none => exact Agree.pure ⟨hlhs, h, Nat.le_refl _⟩
    | some rule =>
      by_cases hlt : rule.precedence < bound
      · simp only [hlt, if_true]
        exact Agree.pure ⟨hlhs, h, Nat.le_refl _⟩
      · simp only [hlt, if_false]
        refine (agree_advance h hc hc').bind ?_
        rintro _ _ q q' ⟨-, hq, hleft⟩
        cases rule with
        | ternary =>
          refine (ih.binary n' hq (by omega) (by omega)).bind ?_
          rintro a a' q₁ q₁' ⟨ha, hq₁, hleft₁⟩
          refine (agree_punctuation hq₁ ":").bind ?_
          rintro _ _ q₂ q₂' ⟨-, hq₂, hleft₂⟩
          refine (ih.binary n' hq₂ (by omega) (by omega)).bind ?_
          rintro b b' q₃ q₃' ⟨hb, hq₃, hleft₃⟩
          have hnode : SameExpr (.ofTernary lhs a b) (.ofTernary lhs' a' b') := by
            simp [SameExpr, Expr.ofTernary, hlhs, ha, hb]
          exact (ih.climb n' hq₃ (by omega) (by omega) hnode).after (by omega)
        | binary op =>
          refine (ih.binary n' hq (by omega) (by omega)).bind ?_
          rintro rhs rhs' q₁ q₁' ⟨hrhs, hq₁, hleft₁⟩
          have hnode : SameExpr (.ofBinary op lhs rhs) (.ofBinary op lhs' rhs') := by
            simp [SameExpr, Expr.ofBinary, hlhs, hrhs]
          exact (ih.climb n' hq₁ (by omega) (by omega) hnode).after (by omega)

theorem agree_operand (ih : ExprAgree ops n) (h : p.Alike p') (hn : 3 * p.left + 2 ≤ n + 1)
    (hn' : 3 * p.left + 2 ≤ n' + 1) :
    Agree (operand ops (n + 1)) (operand ops (n' + 1)) p p' (p.After 1 SameExpr) := by
  have hinner : Agree (primary ops n >>= suffixes ops n) (primary ops n' >>= suffixes ops n') p p'
      (p.After 1 SameExpr) := by
    refine (ih.primary n' h (by omega) (by omega)).bind ?_
    rintro e e' q q' ⟨he, hq, hleft⟩
    exact (ih.suffixes n' hq (by omega) (by omega) he).after (by omega)
  simp only [operand]
  refine Agree.get ?_
  simp only [beforeHere?]
  obtain ⟨hop, hop'⟩ | ⟨text, r, r', hop, hop', hc, hc'⟩ := operator?_cases h
  · simp only [hop, hop', Option.bind_none]
    exact hinner
  · simp only [hop, hop', Option.bind_some]
    cases ops.before? text with
    | none => exact hinner
    | some op =>
      refine (agree_advance h hc hc').bind ?_
      rintro _ _ q q' ⟨-, hq, hleft⟩
      refine (ih.operand n' hq (by omega) (by omega)).bind ?_
      rintro e e' q₁ q₁' ⟨he, hq₁, hleft₁⟩
      exact Agree.pure ⟨by simp [SameExpr, he], hq₁, by omega⟩

/-- The same suffixes follow in both parsers. -/
theorem agree_suffixes (ih : ExprAgree ops n) {e e' : Expr} (h : p.Alike p')
    (hn : 3 * p.left + 1 ≤ n + 1) (hn' : 3 * p.left + 1 ≤ n' + 1) (he : SameExpr e e') :
    Agree (suffixes ops (n + 1) e) (suffixes ops (n' + 1) e') p p' (p.After 0 SameExpr) := by
  simp only [suffixes]
  refine Agree.get ?_
  simp only [suffixHere?]
  obtain ⟨hop, hop'⟩ | ⟨text, r, r', hop, hop', hc, hc'⟩ := operator?_cases h
  · simp only [hop, hop', Option.bind_none]
    exact Agree.pure ⟨he, h, Nat.le_refl _⟩
  · simp only [hop, hop', Option.bind_some]
    cases ops.after? text with
    | none => exact Agree.pure ⟨he, h, Nat.le_refl _⟩
    | some suffix =>
      refine (agree_advance h hc hc').bind ?_
      rintro _ _ q q' ⟨-, hq, hleft⟩
      cases suffix with
      | step op =>
        exact (ih.suffixes n' hq (by omega) (by omega) (by simp [SameExpr, he])).after (by omega)
      | call =>
        refine (agree_separated Expr.bare (m := q.left) (fun hr => hr.isPunctuation _)
          (fun r r' hr hle => ih.binary n' hr (by omega) (by omega)) n' hq (Nat.le_refl _)
          (by omega) (by omega)).bind ?_
        rintro args args' q₁ q₁' ⟨hargs, hq₁, hleft₁⟩
        refine (agree_punctuation hq₁ ")").bind ?_
        rintro _ _ q₂ q₂' ⟨-, hq₂, hleft₂⟩
        exact (ih.suffixes n' hq₂ (by omega) (by omega) (by simp [SameExpr, he, hargs])).after
          (by omega)
      | subscript =>
        refine (ih.binary n' hq (by omega) (by omega)).bind ?_
        rintro index index' q₁ q₁' ⟨hindex, hq₁, hleft₁⟩
        refine (agree_punctuation hq₁ "]").bind ?_
        rintro _ _ q₂ q₂' ⟨-, hq₂, hleft₂⟩
        exact (ih.suffixes n' hq₂ (by omega) (by omega) (by simp [SameExpr, he, hindex])).after
          (by omega)
      | member =>
        refine (agree_identifier hq).bind ?_
        rintro field field' q₁ q₁' ⟨hfield, hq₁, hleft₁⟩
        have hnode : SameExpr (.member e field (e.range.merge field.range))
            (.member e' field' (e'.range.merge field'.range)) := by
          simp [SameExpr, he, hfield.bare_eq]
        exact (ih.suffixes n' hq₁ (by omega) (by omega) hnode).after (by omega)

theorem agree_failExpectedExpr (h : p.Alike p') {α : Type} {post : α → α → Parser → Parser → Prop} :
    Agree failExpectedExpr failExpectedExpr p p' post :=
  agree_error rfl rfl (by simp [h.found]) (by simp)

/-- What a token denotes does not depend on its range, only where its fault is does. -/
theorem literalOf?_cases (l : Lexeme) (r r' : Range) :
    (∃ v, literalOf? ⟨l, r⟩ = .ok v ∧ literalOf? ⟨l, r'⟩ = .ok v) ∨
      ∃ text, literalOf? ⟨l, r⟩ = .error ⟨.invalidNumber text, r⟩ ∧
        literalOf? ⟨l, r'⟩ = .error ⟨.invalidNumber text, r'⟩ := by
  cases l with
  | number text =>
    cases hread : Number.read? text with
    | none => exact .inr ⟨text, by simp [literalOf?, hread]⟩
    | some v =>
      cases v with
      | int i => exact .inl ⟨some (.int i), by simp [literalOf?, hread]⟩
      | float x => exact .inl ⟨some (.float x), by simp [literalOf?, hread]⟩
  | keyword word => cases word <;> exact .inl ⟨_, rfl, rfl⟩
  | _ => exact .inl ⟨_, rfl, rfl⟩

/-- Both parsers are at the same kind of primary expression. -/
theorem agree_primary (ih : ExprAgree ops n) (h : p.Alike p') (hn : 3 * p.left + 1 ≤ n + 1)
    (hn' : 3 * p.left + 1 ≤ n' + 1) :
    Agree (primary ops (n + 1)) (primary ops (n' + 1)) p p' (p.After 1 SameExpr) := by
  simp only [primary]
  refine Agree.get ?_
  obtain ⟨hc, hc'⟩ | ⟨l, r, r', hc, hc'⟩ := h.current_cases
  · simp only [hc, hc']
    exact agree_failExpectedExpr h
  · simp only [hc, hc']
    obtain ⟨v, hv, hv'⟩ | ⟨text, hv, hv'⟩ := literalOf?_cases l r r'
    · simp only [hv, hv']
      cases v with
      | some value =>
        refine (agree_advance h hc hc').bind ?_
        rintro _ _ q q' ⟨-, hq⟩
        exact Agree.pure ⟨rfl, hq⟩
      | none =>
        dsimp only
        split
        · refine (agree_identifier h).bind ?_
          rintro i i' q q' ⟨hi, hq⟩
          exact Agree.pure ⟨by simp [SameExpr, hi.bare_eq], hq⟩
        · refine (agree_advance h hc hc').bind ?_
          rintro _ _ q q' ⟨-, hq, hleft⟩
          refine (ih.binary n' hq (by omega) (by omega)).bind ?_
          rintro inner inner' q₁ q₁' ⟨hinner, hq₁, hleft₁⟩
          refine (agree_punctuation hq₁ ")").bind ?_
          rintro _ _ q₂ q₂' ⟨-, hq₂, hleft₂⟩
          exact Agree.pure ⟨by simp [SameExpr, hinner], hq₂, by omega⟩
        · exact agree_failExpectedExpr h
    · simp only [hv, hv']
      exact agree_error rfl rfl rfl (by simp)

/-- Bounds on nesting that suffice do not show in the expression that is read. -/
theorem exprAgree (ops : OperatorTable) (n : Nat) : ExprAgree ops n := by
  induction n with
  | zero => constructor <;> intros <;> omega
  | succ n ih =>
    constructor
    · intro n' bound p p' h hn hn'
      obtain ⟨n', rfl⟩ : ∃ k, n' = k + 1 := ⟨n' - 1, by omega⟩
      exact agree_binary ih h hn hn'
    · intro n' bound p p' lhs lhs' h hn hn' hlhs
      obtain ⟨n', rfl⟩ : ∃ k, n' = k + 1 := ⟨n' - 1, by omega⟩
      exact agree_climb ih h hn hn' hlhs
    · intro n' p p' h hn hn'
      obtain ⟨n', rfl⟩ : ∃ k, n' = k + 1 := ⟨n' - 1, by omega⟩
      exact agree_operand ih h hn hn'
    · intro n' p p' e e' h hn hn' he
      obtain ⟨n', rfl⟩ : ∃ k, n' = k + 1 := ⟨n' - 1, by omega⟩
      exact agree_suffixes ih h hn hn' he
    · intro n' p p' h hn hn'
      obtain ⟨n', rfl⟩ : ∃ k, n' = k + 1 := ⟨n' - 1, by omega⟩
      exact agree_primary ih h hn hn'

end

end Parse

end Rill
