import Rill.Proofs.Lines

/-!
# Filters are list filtering

A filter may stand over anything that gives items one at a time : a list, a tokenizer, another
filter. `Supply` is that interface, and `Sieve` a filter over it that holds one item ahead and draws
no further than it must. A sieve answers like the `Filter` over the list of all items of its supply
(`Sieve.Follows`), step by step, so what holds of filters over lists holds of filters over
tokenizers and over filters.

`Filter.list_filtering` says what filters give : the items without the tokens left out, whether they
are collected, looked at ahead, or filtered once more; and what follows for the tokens of a text.
-/

namespace Rill

/-! ## Supplies of items -/

/-- Items that are drawn one at a time. Each of them lessens `bound`, so there is an end; what comes
after the end is left open. -/
class Supply (σ : Type) where
  next : σ → Option Item × σ
  bound : σ → Nat
  bound_lt {s s' : σ} {item : Item} : next s = (some item, s') → bound s' < bound s

namespace Supply

variable {σ τ : Type} [Supply σ] [Supply τ] {s s' : σ} {item : Item}

/-- The items drawn before the end. -/
def toList (s : σ) : List Item :=
  match h : next s with
  | (none, _) => []
  | (some item, s') =>
    have := bound_lt h
    item :: toList s'
termination_by bound s

/-- What is left after `n` draws. -/
def after : Nat → σ → σ
  | 0, s => s
  | n + 1, s => after n (next s).2

theorem toList_of_none (h : (next s).1 = none) : toList s = [] := by
  rw [toList]
  split
  · rfl
  · simp_all

/-- An item that is drawn comes before those that are drawn after it. -/
theorem toList_of_some (h : next s = (some item, s')) : toList s = item :: toList s' := by
  rw [toList]
  split <;> simp_all

/-- Supplies that answer every draw alike give the same items. -/
theorem toList_congr {s : σ} {t : τ} (h : ∀ n, (next (after n s)).1 = (next (after n t)).1) :
    toList s = toList t := by
  -- nothing is known of the bound of `t`, but it has to end where `s` does
  induction hb : bound s using Nat.strongRecOn generalizing s t with
  | ind k ih =>
    have hfirst : (next s).1 = (next t).1 := h 0
    cases hs : next s with
    | mk found s' =>
      cases ht : next t with
      | mk found' t' =>
        obtain rfl : found = found' := by simpa [hs, ht] using hfirst
        cases found with
        | none => rw [toList_of_none (by rw [hs]), toList_of_none (by rw [ht])]
        | some item =>
          have hless : bound s' < k := hb ▸ bound_lt hs
          have hrest : ∀ n, (next (after n s')).1 = (next (after n t')).1 := fun n => by
            simpa [after, hs, ht] using h (n + 1)
          rw [toList_of_some hs, toList_of_some ht, ih _ hless hrest rfl]

end Supply

open Supply (toList after)

/-! ## Filters over lists -/

/-- Whether an item is a token of one of the kinds in `skip`. A fault is not. -/
def Item.Skipped (skip : List TokenKind) : Item → Prop
  | .ok t => t.kind ∈ skip
  | .error _ => False

instance (skip : List TokenKind) : DecidablePred (Item.Skipped skip)
  | .ok t => inferInstanceAs (Decidable (t.kind ∈ skip))
  | .error _ => inferInstanceAs (Decidable False)

@[simp]
theorem Item.skipped_ok {skip : List TokenKind} {t : Token} :
    Item.Skipped skip (.ok t) ↔ t.kind ∈ skip := Iff.rfl

@[simp]
theorem Item.not_skipped_error {skip : List TokenKind} {e : LexError} :
    ¬ Item.Skipped skip (.error e) := id

namespace Filter

/-- A filter leaves out just the tokens of the kinds it is made for. -/
theorem leavesOut_iff (skip : List TokenKind) (item : Item) :
    leavesOut skip item ↔ Item.Skipped skip item := by
  cases item <;> simp [leavesOut]

/-- A filter gives the items that are not skipped, in their order. -/
theorem toList_ofItems (skip : List TokenKind) (items : List Item) :
    (ofItems skip items).toList = items.filter fun i => ¬ Item.Skipped skip i := by
  rw [toList_eq, remaining_ofItems]
  refine List.filter_congr fun i _ => ?_
  simp [← leavesOut_iff]

theorem length_remaining_lt {f f' : Filter} {item : Item} (h : f.next = (some item, f')) :
    f'.remaining.length < f.remaining.length := by
  have hhead := f.next_fst
  have htail := f.remaining_next
  rw [h] at hhead htail
  obtain ⟨rest, hrest⟩ := List.head?_eq_some_iff.1 hhead.symm
  simp [htail, hrest]

instance : Supply Filter := ⟨next, fun f => f.remaining.length, length_remaining_lt⟩

/-- What remains after `n` draws is what comes after the first `n` items. -/
theorem remaining_after (n : Nat) (f : Filter) : (after n f).remaining = f.remaining.drop n := by
  induction n generalizing f with
  | zero => rfl
  | succ n ih =>
    have htail : (Supply.next f).2.remaining = f.remaining.tail := f.remaining_next
    rw [after, ih, htail, List.drop_tail]

/-- The draw after `n` others gives the item with the number `n`. -/
theorem next_after (n : Nat) (f : Filter) : (after n f).next.1 = f.remaining[n]? := by
  rw [next_fst, remaining_after, List.head?_drop]

/-- A look ahead after `n` draws shows the item with the number `n`. -/
theorem peek_after (n : Nat) (f : Filter) : (after n f).peek = f.remaining[n]? := by
  rw [peek_eq, remaining_after, List.head?_drop]

/-- A filter gives the same items whether it is drawn from or read to its end. -/
theorem supply_toList (f : Filter) : Supply.toList f = f.toList := by
  rw [toList_eq]
  induction hr : f.remaining generalizing f with
  | nil => exact Supply.toList_of_none (f.next_fst.trans (by rw [hr]; rfl))
  | cons item rest ih =>
    have hnext : Supply.next f = (some item, f.next.2) :=
      Prod.ext (f.next_fst.trans (by rw [hr]; rfl)) rfl
    rw [Supply.toList_of_some hnext, ih _ (by rw [remaining_next, hr]; rfl)]

end Filter

/-! ## Filters over supplies -/

/-- A filter over a supply. It holds the item that comes next and has drawn nothing past it. -/
structure Sieve (σ : Type) where
  skip : List TokenKind
  pending : Option Item
  inner : σ

namespace Sieve

variable {σ : Type} [Supply σ] {f : Sieve σ} {g : Filter}

/-- Draws until an item comes that is not left out, or the end. -/
def pull (skip : List TokenKind) (s : σ) : Option Item × σ :=
  match h : Supply.next s with
  | (none, s') => (none, s')
  | (some item, s') =>
    have := Supply.bound_lt h
    if Filter.leavesOut skip item then pull skip s' else (some item, s')
termination_by Supply.bound s

/-- The filter over a supply. -/
def ofSupply (skip : List TokenKind) (s : σ) : Sieve σ :=
  ⟨skip, (pull skip s).1, (pull skip s).2⟩

/-- The item that comes next. -/
def peek (f : Sieve σ) : Option Item := f.pending

/-- Takes the item that comes next. After the end nothing is drawn any more. -/
def next (f : Sieve σ) : Option Item × Sieve σ :=
  match f.pending with
  | none => (none, f)
  | some item => (some item, ofSupply f.skip f.inner)

/-- A pull that gives an item has drawn something. -/
theorem bound_pull {skip : List TokenKind} {s : σ} (h : (pull skip s).1.isSome) :
    Supply.bound (pull skip s).2 < Supply.bound s := by
  fun_induction pull skip s with
  | case1 => simp at h
  | case2 s item s' hnext hless hout ih => exact Nat.lt_trans (ih h) hless
  | case3 s item s' hnext hless hout => exact hless

/-- How many items may still come : the one held and those of the supply. -/
def bound (f : Sieve σ) : Nat :=
  f.pending.elim 0 fun _ => Supply.bound f.inner + 1

/-- Each item that is taken brings the end nearer. -/
theorem bound_lt {f f' : Sieve σ} {item : Item} (h : f.next = (some item, f')) :
    f'.bound < f.bound := by
  cases hpending : f.pending with
  | none => simp [next, hpending] at h
  | some i =>
    obtain rfl : ofSupply f.skip f.inner = f' := by simpa [next, hpending] using congrArg Prod.snd h
    cases hfound : (pull f.skip f.inner).1 with
    | none => simp [bound, ofSupply, hpending, hfound]
    | some found =>
      have hless := bound_pull (s := f.inner) (Option.isSome_of_eq_some hfound)
      simpa [bound, ofSupply, hpending, hfound] using hless

instance : Supply (Sieve σ) := ⟨next, bound, bound_lt⟩

/-- A pull from a supply finds what a pull from the list of its items finds, and leaves
what that leaves. -/
theorem pull_eq (skip : List TokenKind) (s : σ) :
    (pull skip s).1 = (Filter.pull skip (toList s)).1 ∧
      ((pull skip s).1.isSome → toList (pull skip s).2 = (Filter.pull skip (toList s)).2) := by
  fun_induction pull skip s with
  | case1 s s' hnext => simp [Supply.toList_of_none (s := s) (by rw [hnext]), Filter.pull]
  | case2 s item s' hnext hless hout ih =>
    simpa [Supply.toList_of_some hnext, Filter.pull, hout] using ih
  | case3 s item s' hnext hless hout => simp [Supply.toList_of_some hnext, Filter.pull, hout]

/-- The sieve and the filter hold the same item and have the same items before them. At the end the
supply may hold more, but nothing is drawn from it. -/
structure Follows (f : Sieve σ) (g : Filter) : Prop where
  skip : f.skip = g.skip
  pending : f.pending = g.pending
  source : f.pending.isSome → toList f.inner = g.source

/-- A sieve over a supply starts as the filter over its items does. -/
theorem follows_ofSupply (skip : List TokenKind) (s : σ) :
    (ofSupply skip s).Follows (.ofItems skip (toList s)) where
  skip := rfl
  pending := (pull_eq skip s).1
  source := (pull_eq skip s).2

theorem Follows.next_fst (h : f.Follows g) : f.next.1 = g.next.1 := by
  have hpending := h.pending
  unfold next Filter.next
  cases hg : g.pending with
  | none => simp [hpending, hg]
  | some item => simp [hpending, hg]

/-- A sieve keeps following its filter when an item is taken. -/
theorem Follows.next (h : f.Follows g) : f.next.2.Follows g.next.2 := by
  have hpending := h.pending
  unfold Sieve.next Filter.next
  cases hg : g.pending with
  | none => simpa [hpending, hg] using h
  | some item =>
    have hsource : toList f.inner = g.source := h.source (by simp [hpending, hg])
    simpa [hpending, hg, h.skip, hsource] using follows_ofSupply f.skip f.inner

/-- A sieve keeps following its filter through any number of draws. -/
theorem Follows.after (h : f.Follows g) (n : Nat) :
    (Supply.after n f).Follows (Supply.after n g) := by
  induction n generalizing f g with
  | zero => exact h
  | succ n ih => exact ih h.next

/-- Every look ahead and every draw is answered alike. -/
def Answers (f : Sieve σ) (g : Filter) : Prop :=
  ∀ n, (Supply.after n f).peek = (Supply.after n g).peek ∧
    (Supply.after n f).next.1 = (Supply.after n g).next.1

/-- A sieve that follows a filter answers as the filter does. -/
theorem Follows.answers (h : f.Follows g) : f.Answers g := fun n =>
  ⟨(h.after n).pending, (h.after n).next_fst⟩

theorem Answers.congr {g' : Filter} (h : f.Answers g) (hremaining : g.remaining = g'.remaining) :
    f.Answers g' := fun n => by
  have hn := h n
  rw [Filter.peek_after, Filter.next_after, hremaining] at hn
  rwa [Filter.peek_after, Filter.next_after]

/-- Draws from a sieve give the items of its supply without the tokens left out. -/
theorem toList_ofSupply (skip : List TokenKind) (s : σ) :
    toList (ofSupply skip s) = (toList s).filter fun i => ¬ Item.Skipped skip i := by
  rw [← Filter.toList_ofItems, ← Filter.supply_toList]
  exact Supply.toList_congr fun n => ((follows_ofSupply skip s).answers n).2

end Sieve

/-! ## The tokens of a text -/

namespace Tokenizer

variable {t t' : Tokenizer} {item : Item}

/-- How many items may still come : none after a fault, else one for each character. -/
def bound (t : Tokenizer) : Nat :=
  if t.failed then 0 else t.cursor.rest.length

theorem bound_of_failed (h : t.failed = true) : t.bound = 0 := by
  simp [bound, h]

theorem bound_of_not_failed (h : t.failed = false) : t.bound = t.cursor.rest.length := by
  simp [bound, h]

/-- A token takes at least one character, and after a fault nothing comes. -/
theorem bound_lt (h : t.next = (some item, t')) : t'.bound < t.bound := by
  cases hfailed : t.failed with
  | true => simp [next_failed hfailed] at h
  | false =>
    rw [bound_of_not_failed hfailed]
    cases hscan : scan t.cursor.rest with
    | none => simp [next, hfailed, hscan] at h
    | some found =>
      have hextent := extent_of_scan hscan
      cases found with
      | lexeme l n =>
        obtain rfl : t.after l n = t' := by
          simpa [next_lexeme hfailed hscan] using congrArg Prod.snd h
        simp only [Scan.extent] at hextent
        rw [bound_of_not_failed (t := t.after l n) hfailed, after, Cursor.rest_advance,
          List.length_drop]
        omega
      | fault why n =>
        obtain rfl : { t with cursor := t.cursor.advance n, failed := true } = t' := by
          simpa [next_fault hfailed hscan] using congrArg Prod.snd h
        rw [bound_of_failed rfl]
        omega

instance : Supply Tokenizer := ⟨next, bound, bound_lt⟩

/-- As many draws as the bound says give all items. -/
theorem items_eq (n : Nat) (t : Tokenizer) (h : t.bound ≤ n) : t.items n = toList t := by
  induction n generalizing t with
  | zero =>
    cases hnext : t.next with
    | mk found t' =>
      cases found with
      | none => rw [items, Supply.toList_of_none (s := t) (congrArg Prod.fst hnext)]
      | some item =>
        have hless := bound_lt hnext
        omega
  | succ n ih =>
    cases hnext : t.next with
    | mk found t' =>
      cases found with
      | none => rw [items, hnext, Supply.toList_of_none (s := t) (congrArg Prod.fst hnext)]
      | some item =>
        have hless := bound_lt hnext
        rw [items, hnext, Supply.toList_of_some (s := t) hnext, ← ih t' (by omega)]

end Tokenizer

/-- Leaving out tokens changes neither whether a fault is met nor which. -/
theorem Item.collect_filter (skip : List TokenKind) (items : List Item) :
    Item.collect (items.filter fun i => ¬ Item.Skipped skip i) =
      (Item.collect items).map (List.filter fun t => t.kind ∉ skip) := by
  induction items with
  | nil => rfl
  | cons item items ih =>
    cases item with
    | error e => rfl
    | ok t =>
      have hall : collect (.ok t :: items) = (collect items).map (t :: ·) := rfl
      by_cases hskip : t.kind ∈ skip
      · rw [List.filter_cons_of_neg (by simpa using hskip), ih, hall]
        cases collect items <;> simp [Except.map, hskip]
      · have hkept : collect (.ok t :: items.filter fun i => ¬ Item.Skipped skip i) =
          (collect (items.filter fun i => ¬ Item.Skipped skip i)).map (t :: ·) := rfl
        rw [List.filter_cons_of_pos (by simpa using hskip), hkept, ih, hall]
        cases collect items <;> simp [Except.map, hskip]

/-- Filtering once more leaves out the kinds of both filters. -/
theorem Item.filter_filter_skipped {skip more both : List TokenKind}
    (h : ∀ k, k ∈ both ↔ k ∈ skip ∨ k ∈ more) (items : List Item) :
    (items.filter fun i => ¬ Item.Skipped skip i).filter (fun i => ¬ Item.Skipped more i) =
      items.filter fun i => ¬ Item.Skipped both i := by
  rw [List.filter_filter]
  refine List.filter_congr fun i _ => ?_
  cases i with
  | error e => simp
  | ok t => simp [h, Bool.and_comm]

namespace Buffer

variable (b : Buffer)

/-- Drawn one by one, a tokenizer gives the items of the text. -/
theorem toList_tokenizer : toList (Tokenizer.start b) = b.items :=
  (Tokenizer.items_eq _ _ (Nat.le_refl _)).symm

/-- The tokens of a text are all of its tokens without trivia. -/
theorem tokens_eq_map : b.tokens = b.allTokens.map (List.filter fun t => !t.isTrivia) := by
  have htrivia : ∀ t : Token, decide (t.kind ∉ Filter.trivia) = !t.isTrivia := fun t => by
    rw [Token.isTrivia, ← Filter.leavesOut_trivia, Filter.leavesOut, List.contains_eq_mem,
      decide_not]
  rw [tokens, Filter.toList_ofItems, Item.collect_filter, allTokens, funext htrivia]

end Buffer

namespace Filter

/-- A filter gives the items without the tokens of the kinds it skips, one by one and then nothing;
what is seen ahead is what is taken next; and a filter over a filter leaves out the kinds of both.
It is so over every supply. Hence the tokens of a text that carry meaning are all its tokens without
the others, or the same fault. -/
theorem list_filtering (items : List Item) {skip more both : List TokenKind}
    (hboth : ∀ k, k ∈ both ↔ k ∈ skip ∨ k ∈ more) :
    (ofItems skip items).toList = items.filter (fun i => ¬ Item.Skipped skip i) ∧
    (ofItems more (ofItems skip items).toList).toList = (ofItems both items).toList ∧
    (ofItems skip (ofItems skip items).toList).toList = (ofItems skip items).toList ∧
    (∀ n, (after n (ofItems skip items)).peek = (after n (ofItems skip items)).next.1 ∧
      (after n (ofItems skip items)).next.1 = (items.filter fun i => ¬ Item.Skipped skip i)[n]?) ∧
    (∀ m n, m ≤ n → (after m (ofItems skip items)).next.1 = none →
      (after n (ofItems skip items)).next.1 = none) ∧
    (∀ (σ : Type) [Supply σ] (s : σ),
      (Sieve.ofSupply skip s).Answers (ofItems skip (Supply.toList s)) ∧
      (Sieve.ofSupply more (Sieve.ofSupply skip s)).Answers (ofItems both (Supply.toList s))) ∧
    ∀ b : Buffer,
      b.allTokens = Item.collect (Supply.toList (Tokenizer.start b)) ∧
      b.tokens = Item.collect (Supply.toList (Sieve.ofSupply trivia (Tokenizer.start b))) ∧
      b.tokens = b.allTokens.map (List.filter fun t => !t.isTrivia) := by
  refine ⟨toList_ofItems skip items, ?_, ?_, fun n => ⟨?_, ?_⟩, fun m n hmn hend => ?_, ?_,
    fun b => ⟨?_, ?_, ?_⟩⟩
  · simp only [toList_ofItems]
    exact Item.filter_filter_skipped hboth items
  · simp only [toList_ofItems]
    exact Item.filter_filter_skipped (fun k => or_self_iff.symm) items
  · rw [peek_after, next_after]
  · rw [next_after, ← toList_eq, toList_ofItems]
  · rw [next_after, List.getElem?_eq_none_iff] at hend ⊢
    exact Nat.le_trans hend hmn
  · intro σ _ s
    -- the outer sieve follows the filter over what the inner one gives, and that is already
    -- filtered
    refine ⟨(Sieve.follows_ofSupply skip s).answers,
      (Sieve.follows_ofSupply more _).answers.congr ?_⟩
    rw [← toList_eq, ← toList_eq, toList_ofItems, toList_ofItems, Sieve.toList_ofSupply]
    exact Item.filter_filter_skipped hboth _
  · rw [Buffer.toList_tokenizer, Buffer.allTokens]
  · rw [Sieve.toList_ofSupply, Buffer.toList_tokenizer, Buffer.tokens, toList_ofItems]
  · exact b.tokens_eq_map

/-- Runs of tokens that are left out, with faults inside them and at their end. -/
def interrupted : List Item :=
  [.ok ⟨.blank " ", .unknown⟩, .error ⟨.emptyChar, .unknown⟩, .ok ⟨.comment "//", .unknown⟩,
    .ok ⟨.blank "\t", .unknown⟩, .ok ⟨.identifier "x", .unknown⟩, .ok ⟨.blank " ", .unknown⟩,
    .error ⟨.unterminatedString, .unknown⟩, .ok ⟨.lineBreak "\n", .unknown⟩]

/-- Blanks are left out first, then comments and line breaks; both faults stay where they were. -/
theorem list_filtering_interrupted :
    (∀ k : TokenKind, k ∈ [.lineBreak, .comment, .blank] ↔
      k ∈ [.blank] ∨ k ∈ [.comment, .lineBreak]) ∧
    (ofItems [.comment, .lineBreak] (ofItems [.blank] interrupted).toList).toList =
      [.error ⟨.emptyChar, .unknown⟩, .ok ⟨.identifier "x", .unknown⟩,
        .error ⟨.unterminatedString, .unknown⟩] ∧
    ∀ n, 5 ≤ n → (after n (ofItems [.blank] interrupted)).next.1 = none := by
  have hboth : ∀ k : TokenKind, k ∈ [.lineBreak, .comment, .blank] ↔
      k ∈ [.blank] ∨ k ∈ [.comment, .lineBreak] := by
    grind
  obtain ⟨-, htwice, -, -, hend, -, -⟩ := list_filtering interrupted hboth
  exact ⟨hboth, htwice.trans rfl, fun n hn => hend 5 n hn rfl⟩

end Filter

end Rill
