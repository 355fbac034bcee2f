import Rill.Proofs.ExpressionComplete
import Rill.Proofs.StatementSound

/-!
# Reading parts of statements from their words

`p.Spells ms` says that the tokens ahead of `p` match the words `ms`; every step of parsing then
goes from the words before it to those after it. A token belongs to the same form of statement as
its word, so only words have to be looked at : the first word of a statement
(`TokenPattern.Opens`) tells it from what closes a list, and the names in it must be none of the
words of the grammar (`NamesFree`).
-/

namespace Rill

open Grammar (standardOperators)

/-- The tokens ahead of the parser match the words. -/
def Parser.Spells (p : Parser) (ms : List TokenPattern) : Prop :=
  ∃ ts, Fits ts ms ∧ p.Reads ts

namespace Parser.Spells

variable {p : Parser} {m : TokenPattern} {ms : List TokenPattern}

/-- The first word is matched by the current token. -/
theorem exists_current (h : p.Spells (m :: ms)) : ∃ t, p.current = some t ∧ m.Fits t := by
  obtain ⟨ts, hfits, hp⟩ := h
  obtain ⟨t, us, rfl, ht, -⟩ := fits_cons_iff.1 hfits
  exact ⟨t, hp.current, ht⟩

theorem current_nil (h : p.Spells []) : p.current = none := by
  obtain ⟨ts, hfits, hp⟩ := h
  obtain rfl := fits_nil_iff.1 hfits
  exact hp.current_nil

/-- A parser is not at a mark that is not the next word. -/
theorem isPunctuation_eq_false {text : String} (h : p.Spells ms)
    (hne : ms.head? ≠ some (.punct text)) :
    p.isPunctuation text = false := by
  cases ms with
  | nil => simp [Parser.isPunctuation, h.current_nil]
  | cons m ms =>
    obtain ⟨t, hc, ht⟩ := h.exists_current
    rw [Parser.isPunctuation, hc, Option.any_some]
    exact ht.isPunctuation_eq_false fun hm => hne (by simp [hm])

theorem isIdentifier_eq_false {name : String} (h : p.Spells ms)
    (hne : ms.head? ≠ some (.ident name)) :
    p.isIdentifier name = false := by
  cases ms with
  | nil => simp [Parser.isIdentifier, h.current_nil]
  | cons m ms =>
    obtain ⟨t, hc, ht⟩ := h.exists_current
    rw [Parser.isIdentifier, hc, Option.any_some]
    exact ht.isIdentifier_eq_false fun hm => hne (by simp [hm])

/-- A parser is at the mark that is the next word. -/
theorem isPunctuation {text : String} (h : p.Spells (.punct text :: ms)) :
    p.isPunctuation text := by
  obtain ⟨t, hc, ht⟩ := h.exists_current
  have hlex : t.lexeme = .punctuation text := ht
  simp [Parser.isPunctuation, hc, Token.isPunctuation, hlex]

theorem isIdentifier {name : String} (h : p.Spells (.ident name :: ms)) : p.isIdentifier name := by
  obtain ⟨t, hc, ht⟩ := h.exists_current
  have hlex : t.lexeme = .identifier name := ht
  simp [Parser.isIdentifier, hc, Token.isIdentifier, hlex]

end Parser.Spells

/-! ## Steps over words -/

namespace Parse

variable {p : Parser} {ms : List TokenPattern}

/-- A mark that is the next word is taken. -/
theorem succeeds_spelled_punctuation {text : String} (h : p.Spells (.punct text :: ms)) :
    (punctuation text).Succeeds p fun _ q => q.Spells ms := by
  obtain ⟨ts, hfits, hp⟩ := h
  obtain ⟨r, us, rfl, hus⟩ := fits_word_iff.1 hfits
  exact (succeeds_punctuation hp).mono fun _ q ⟨_, hq⟩ => ⟨us, hus, hq⟩

theorem succeeds_spelled_word {text : String} (h : p.Spells (.ident text :: ms)) :
    (word text).Succeeds p fun _ q => q.Spells ms := by
  obtain ⟨ts, hfits, hp⟩ := h
  obtain ⟨r, us, rfl, hus⟩ := fits_word_iff.1 hfits
  exact (succeeds_word hp).mono fun _ q ⟨_, hq⟩ => ⟨us, hus, hq⟩

theorem succeeds_spelled_advance {m : TokenPattern} (h : p.Spells (m :: ms)) :
    advance.Succeeds p fun _ q => q.Spells ms := by
  obtain ⟨ts, hfits, hp⟩ := h
  obtain ⟨t, us, rfl, -, hus⟩ := fits_cons_iff.1 hfits
  exact (succeeds_advance hp).mono fun _ q ⟨_, hq⟩ => ⟨us, hus, hq⟩

theorem succeeds_spelled_accept {text : String} (h : p.Spells (.punct text :: ms)) :
    (accept text).Succeeds p fun b q => b = true ∧ q.Spells ms := by
  obtain ⟨ts, hfits, hp⟩ := h
  obtain ⟨r, us, rfl, hus⟩ := fits_word_iff.1 hfits
  exact (succeeds_accept hp).mono fun _ q ⟨hb, hq⟩ => ⟨hb, us, hus, hq⟩

/-- A name that is the next word is taken, as it is written. -/
theorem succeeds_spelled_identifier {ident : Ident} (h : p.Spells (.ident ident.name :: ms)) :
    identifier.Succeeds p fun i q =>
      i.mapRange Relabel.plain.range = ident.mapRange Relabel.plain.range ∧ q.Spells ms := by
  obtain ⟨ts, hfits, hp⟩ := h
  obtain ⟨r, us, rfl, hus⟩ := fits_word_iff.1 hfits
  refine (succeeds_identifier hp).mono ?_
  rintro _ q ⟨rfl, hq⟩
  exact ⟨rfl, us, hus, hq⟩

theorem succeeds_spelled_declare (h : p.Spells ms) (ident : Ident) :
    (declare ident).Succeeds p fun _ q => q.Spells ms := by
  obtain ⟨ts, hfits, hp⟩ := h
  exact (succeeds_declare hp ident).mono fun _ q hq => ⟨ts, hfits, hq⟩

/-- An expression is read up to a mark that does not extend it. -/
theorem succeeds_spelled_expression {e : Expr} (he : e.WellShaped) {n : Nat} {mark : String}
    (h : p.Spells (e.spelling ++ .punct mark :: ms))
    (hn : 3 * (e.spelling ++ .punct mark :: ms).length + 3 ≤ n)
    (hs : standardOperators.after? mark = none) (hr : standardOperators.between? mark = none) :
    (expression standardOperators n).Succeeds p fun e' q =>
      e'.bare = e.bare ∧ q.Spells (.punct mark :: ms) := by
  obtain ⟨ts, hfits, hp⟩ := h
  rw [← List.Forall₂.length_eq hfits] at hn
  obtain ⟨us, vs, rfl, hus, hvs⟩ := fits_append_iff.1 hfits
  obtain ⟨r, ws, rfl, -⟩ := fits_word_iff.1 hvs
  refine (succeeds_expression he hus hp hn (stopsBefore_punctuation 0 hs hr)).mono ?_
  rintro e' q ⟨he', hq⟩
  exact ⟨he', _, hvs, hq⟩

/-- What an item of a list must do to be read from its words, when what comes after it satisfies
`After` : it is told apart from what ends the list, and it reads something with the key of `x`. -/
def ReadsSpelled {α β : Type} (item : Parse α) (stop : Parser → Bool) (key : α → β)
    (After : List TokenPattern → Prop) (size : Nat) (x : α) (ms : List TokenPattern) : Prop :=
  ∀ ⦃p ns⦄, p.Spells (ms ++ ns) → (ms ++ ns).length ≤ size → After ns →
    stop p = false ∧ item.Succeeds p fun y q => key y = key x ∧ q.Spells ns

/-- Items one after the other are read until the test holds. -/
theorem succeeds_itemsUntil {α β : Type} {key : α → β} {spell : α → List TokenPattern}
    {item : Parse α} {stop : Parser → Bool} {After : List TokenPattern → Prop} {size : Nat}
    (hend : After ms) (hstop : ∀ q, q.Spells ms → stop q) {xs : List α}
    (hafter : ∀ x ∈ xs, ∀ ns, After (spell x ++ ns))
    (hitem : ∀ x ∈ xs, ReadsSpelled item stop key After size x (spell x)) {fuel : Nat}
    (hfuel : xs.length < fuel) (hsize : (xs.flatMap spell ++ ms).length ≤ size)
    (hp : p.Spells (xs.flatMap spell ++ ms)) :
    (itemsUntil stop item fuel).Succeeds p fun ys q => ys.map key = xs.map key ∧ q.Spells ms := by
  induction xs generalizing fuel p with
  | nil =>
    obtain ⟨fuel, rfl⟩ : ∃ k, fuel = k + 1 := ⟨fuel - 1, by omega⟩
    rw [itemsUntil]
    refine Succeeds.get ?_
    rw [if_pos (hstop p hp)]
    exact Succeeds.pure ⟨rfl, hp⟩
  | cons x xs ih =>
    obtain ⟨fuel, rfl⟩ : ∃ k, fuel = k + 1 := ⟨fuel - 1, by omega⟩
    rw [List.flatMap_cons, List.append_assoc] at hp hsize
    have hnext : After (xs.flatMap spell ++ ms) := by
      cases xs with
      | nil => exact hend
      | cons y ys =>
        rw [List.flatMap_cons, List.append_assoc]
        exact hafter y (by simp) _
    obtain ⟨hgo, hread⟩ := hitem x (by simp) hp hsize hnext
    rw [itemsUntil]
    refine Succeeds.get ?_
    rw [if_neg (by simp [hgo])]
    refine hread.bind ?_
    rintro y q ⟨hy, hq⟩
    have hrest := ih (fun x' hx' => hafter x' (List.mem_cons_of_mem _ hx'))
      (fun x' hx' => hitem x' (List.mem_cons_of_mem _ hx')) (by simpa using hfuel)
      (by simp only [List.length_append] at hsize ⊢; omega) hq
    refine hrest.bind ?_
    rintro ys q' ⟨hys, hq'⟩
    exact Succeeds.pure ⟨by simp [hy, hys], hq'⟩

end Parse

/-! ## Names and first words -/

/-- The words that start a statement. -/
def statementWords : List String :=
  ["var", "const", "func", "class", "namespace", "if", "while", "do", "for", "switch", "case",
    "default", "break", "continue", "return"]

/-- The name that is written for a mention. -/
def Mention.name? : Mention → Option String
  | .ident i => some i.name
  | .type (.named i) => some i.name
  | .type (.builtin _) => none

/-- A text that may serve as a name : it is cut from a source as an identifier, so it is no reserved
word, and it is no word of the grammar. -/
structure IsName (name : String) : Prop where
  lexical : scan name.toList = some (.lexeme (.identifier name) name.toList.length)
  free : name ∉ "else" :: statementWords

/-- A brace is no name. -/
theorem IsName.ne_brace {name : String} (h : IsName name) : name ≠ "\x7b" := by
  rintro rfl
  have hscan : scan "\x7b".toList = some (.lexeme (.punctuation "\x7b") 1) := rfl
  have hlexical := h.lexical
  rw [hscan] at hlexical
  simp at hlexical

/-- All names among the mentions may serve as names. -/
def NamesFree (mentions : List Mention) : Prop :=
  ∀ m ∈ mentions, ∀ name, m.name? = some name → IsName name

/-- Fewer mentions have fewer names. -/
theorem NamesFree.mono {l l' : List Mention} (h : NamesFree l) (hsub : ∀ m ∈ l', m ∈ l) :
    NamesFree l' :=
  fun m hm => h m (hsub m hm)

/-- The word neither closes a list of statements nor stands for a missing statement, and does not
continue the statement before it. -/
structure TokenPattern.Opens (m : TokenPattern) : Prop where
  ne_close : m ≠ .punct "\x7d"
  ne_semicolon : m ≠ .punct ";"
  ne_else : m ≠ .ident "else"

/-- An expression opens a statement, and with no word of one. -/
theorem Expr.opens_spelling (e : Expr) (hnames : NamesFree e.mentions) :
    ∃ m ms, e.spelling = m :: ms ∧ m.Opens ∧ ∀ text ∈ statementWords, m ≠ .ident text := by
  obtain ⟨m, ms, heq, hm⟩ := e.starts_spelling
  have hident : ∀ text ∈ "else" :: statementWords, m ≠ .ident text := by
    rintro text htext rfl
    rcases hm with ⟨value, ⟨⟩⟩ | ⟨i, hi, hname⟩ | ⟨text', -, ⟨⟩⟩
    obtain rfl : text = i.name := by simpa using hname
    exact (hnames _ hi i.name rfl).free htext
  exact ⟨m, ms, heq, ⟨hm.ne_punct (by decide), hm.ne_punct (by decide), hident _ (by simp)⟩,
    fun text htext => hident text (List.mem_cons_of_mem _ htext)⟩

theorem opens_ident {name : String} (h : name ≠ "else") : (TokenPattern.ident name).Opens :=
  ⟨by simp, by simp, by simpa using h⟩

/-- A declaration opens a statement. -/
theorem Decl.opens_spelling (d : Decl) : ∃ m ms, d.spelling = m :: ms ∧ m.Opens := by
  match d with
  | .var v => exact ⟨_, _, rfl, opens_ident (by cases h : v.constant <;> simp [Variable.word])⟩
  | .func ⟨_, _, _, _, _, _, _, _⟩ => exact ⟨_, _, rfl, opens_ident (by simp)⟩
  | .group ⟨kind, _, _, _, _, _, _, _⟩ =>
    exact ⟨_, _, rfl, opens_ident (by cases kind <;> simp [Parse.groupWord])⟩

/-- A statement starts with a word that opens one. -/
theorem Stmt.opens_spelling (s : Stmt) (hnames : NamesFree s.mentions) :
    ∃ m ms, s.spelling = m :: ms ∧ m.Opens := by
  match s with
  | .expr e _ =>
    obtain ⟨m, ms, heq, hm, -⟩ := e.opens_spelling hnames
    exact ⟨m, _, by rw [spelling, heq, List.cons_append], hm⟩
  | .decl d _ => exact d.opens_spelling
  | .block ⟨_, _, _⟩ => exact ⟨_, _, rfl, ⟨by simp, by simp, by simp⟩⟩
  | .ifElse .. | .whileDo .. | .doWhile .. | .forLoop .. | .switch .. | .caseLabel ..
  | .defaultLabel _ | .continue _ | .break _ | .return .. =>
    exact ⟨_, _, rfl, opens_ident (by simp)⟩

/-! ## Parts of statements -/

/-- The words do not start with `else`. -/
def NoElse (ms : List TokenPattern) : Prop :=
  ms.head? ≠ some (.ident "else")

/-- A word that opens a statement is no `else`. -/
theorem noElse_of_opens {m : TokenPattern} {ms : List TokenPattern} (h : m.Opens) :
    NoElse (m :: ms) := by
  simpa [NoElse] using h.ne_else

theorem noElse_punct (text : String) (ms : List TokenPattern) : NoElse (.punct text :: ms) := by
  simp [NoElse]

namespace Parse

variable {p : Parser} {ms : List TokenPattern} {n : Nat}

/-- A type before a name is told from the name by the token that follows. -/
theorem succeeds_typeRef? {type : Option TypeRef} {name mark : String} {us rest : List Token}
    {r r' : Range} (hus : Fits us (TypeRef.spelling type))
    (hp : p.Reads (us ++ ⟨.identifier name, r⟩ :: ⟨.punctuation mark, r'⟩ :: rest)) :
    typeRef?.Succeeds p fun t q => t.bind Relabel.plain.type = type.bind Relabel.plain.type ∧
      q.Reads (⟨.identifier name, r⟩ :: ⟨.punctuation mark, r'⟩ :: rest) := by
  refine Succeeds.get ?_
  rcases type with _ | type | ident
  · obtain rfl := fits_nil_iff.1 hus
    have hnext : p.identifierFollows = false := by
      simp [Parser.identifierFollows, Filter.peek_eq, Parser.Reads.upcoming hp, Token.kind,
        Lexeme.kind]
    simp only [Parser.Reads.current hp, hnext]
    exact Succeeds.pure ⟨rfl, hp⟩
  · obtain ⟨l, vs, rfl, hvs⟩ := fits_word_iff.1 hus
    obtain rfl := fits_nil_iff.1 hvs
    simp only [Parser.Reads.current hp]
    exact (succeeds_advance hp).bind fun _ q hq => Succeeds.pure ⟨rfl, hq.2⟩
  · obtain ⟨l, vs, rfl, hvs⟩ := fits_word_iff.1 hus
    obtain rfl := fits_nil_iff.1 hvs
    have hnext : p.identifierFollows := by
      simp [Parser.identifierFollows, Filter.peek_eq, Parser.Reads.upcoming hp, Token.kind,
        Lexeme.kind]
    simp only [Parser.Reads.current hp, hnext, if_true]
    refine (succeeds_identifier hp).bind ?_
    rintro _ q ⟨rfl, hq⟩
    exact Succeeds.pure ⟨rfl, hq⟩

theorem succeeds_spelled_typeRef? {type : Option TypeRef} {name : String}
    (h : p.Spells (TypeRef.spelling type ++ .ident name :: ms))
    (hms : ∃ mark ns, ms = .punct mark :: ns) :
    typeRef?.Succeeds p fun t q => t.bind Relabel.plain.type = type.bind Relabel.plain.type ∧
      q.Spells (.ident name :: ms) := by
  obtain ⟨mark, ns, rfl⟩ := hms
  obtain ⟨ts, hfits, hp⟩ := h
  obtain ⟨us, vs, rfl, hus, hvs⟩ := fits_append_iff.1 hfits
  obtain ⟨r, ws, rfl, hws⟩ := fits_word_iff.1 hvs
  obtain ⟨r', xs, rfl, -⟩ := fits_word_iff.1 hws
  exact (succeeds_typeRef? hus hp).mono fun t q ⟨ht, hq⟩ => ⟨ht, _, hvs, hq⟩

/-- After a name comes the mark of its initial value, or the semicolon. -/
theorem initSpelling_cons (init : Option Expr) :
    ∃ mark ns, Expr.initSpelling init ++ .punct ";" :: ms = .punct mark :: ns := by
  cases init with
  | none => exact ⟨_, _, rfl⟩
  | some e => exact ⟨_, _, rfl⟩

/-- An initial value is read if there is one, and a constant has one. -/
theorem succeeds_spelled_initialValue {init : Option Expr} {constant : Bool}
    (hshape : ∀ e, init = some e → e.WellShaped) (hconst : constant → init.isSome)
    (h : p.Spells (Expr.initSpelling init ++ .punct ";" :: ms))
    (hn : 3 * (Expr.initSpelling init ++ .punct ";" :: ms).length + 3 ≤ n) :
    (initialValue (nested .standard n) constant).Succeeds p fun init' q =>
      init'.map Expr.bare = init.map Expr.bare ∧ q.Spells (.punct ";" :: ms) := by
  unfold initialValue
  cases init with
  | none =>
    have hmark : p.isPunctuation "=" = false :=
      h.isPunctuation_eq_false (by simp [Expr.initSpelling])
    obtain rfl : constant = false := by simpa using hconst
    refine (succeeds_accept_false hmark).bind ?_
    rintro _ _ ⟨rfl, rfl⟩
    exact Succeeds.pure ⟨rfl, h⟩
  | some e =>
    refine (succeeds_spelled_accept h).bind ?_
    rintro _ q ⟨rfl, hq⟩
    simp only [Expr.initSpelling, List.cons_append, List.length_cons] at hn
    refine Succeeds.map ((succeeds_spelled_expression (hshape e rfl) hq (by omega) rfl rfl).mono ?_)
    rintro e' q' ⟨he', hq'⟩
    exact ⟨congrArg some he', hq'⟩

/-- A well-formed variable is read from its words. -/
theorem succeeds_spelled_variableDecl {v : Variable} (hv : v.WellFormed)
    (h : p.Spells (v.spelling ++ ms)) (hn : 3 * (v.spelling ++ ms).length + 3 ≤ n) :
    (variableDecl (nested .standard n) v.constant).Succeeds p fun v' q =>
      v'.relabel .plain = v.relabel .plain ∧ q.Spells ms := by
  simp only [Variable.spelling, List.cons_append, List.append_assoc, List.nil_append,
    List.length_cons, List.length_append] at h hn
  unfold variableDecl
  refine (succeeds_spelled_word h).bind fun start q₁ hq₁ => ?_
  refine (succeeds_spelled_typeRef? hq₁ (initSpelling_cons v.init)).bind ?_
  rintro type q₂ ⟨htype, hq₂⟩
  refine (succeeds_spelled_identifier hq₂).bind ?_
  rintro ident q₃ ⟨hident, hq₃⟩
  refine (succeeds_spelled_declare hq₃ ident).bind fun id q₄ hq₄ => ?_
  refine (succeeds_spelled_initialValue hv.1 hv.2 hq₄ (by
    simp only [List.length_cons, List.length_append]; omega)).bind ?_
  rintro init q₅ ⟨hinit, hq₅⟩
  refine (succeeds_spelled_punctuation hq₅).bind fun stop q₆ hq₆ => ?_
  refine Succeeds.get (Succeeds.pure ⟨?_, hq₆⟩)
  have hinit' : init.map (Expr.mapRange Relabel.plain.range) =
      v.init.map (Expr.mapRange Relabel.plain.range) := hinit
  simp only [Variable.relabel, hident, htype, hinit']
  rfl

/-- The parameter is spelled by the tokens. -/
def WrittenParam (v : Variable) (ts : List Token) : Prop :=
  v.WellFormedParam ∧ Fits ts v.paramSpelling

/-- Tokens that spell parameters are cut into parameters with commas in between. -/
theorem separated_params_of_fits : ∀ {vs : List Variable} {ts : List Token},
    (∀ v ∈ vs, v.WellFormedParam) → Fits ts (Variable.paramsSpelling vs) →
    Separated WrittenParam vs ts
  | [], ts, _, h => by
    obtain rfl := fits_nil_iff.1 h
    exact .nil
  | [v], ts, hall, h => .one ⟨hall v (by simp), h⟩
  | v :: next :: vs, ts, hall, h => by
    obtain ⟨us, _, rfl, hus, hmarks⟩ := fits_append_iff.1 h
    obtain ⟨r, ws, rfl, hws⟩ := fits_word_iff.1 hmarks
    exact .cons ⟨hall v (by simp), hus⟩
      (separated_params_of_fits (fun v' h' => hall v' (List.mem_cons_of_mem _ h')) hws)

/-- A parameter is read from its tokens up to the next comma or parenthesis. -/
theorem readsItem_param (size : Nat) :
    ReadsItem param (Variable.relabel .plain) WrittenParam size := by
  rintro v us ⟨⟨hwell, hinit⟩, hus⟩ p c r more - - hp
  obtain ⟨ts, _, rfl, hts, hname⟩ := fits_append_iff.1 hus
  obtain ⟨l, _, rfl, hnil⟩ := fits_word_iff.1 hname
  obtain rfl := fits_nil_iff.1 hnil
  have hconst : v.constant = false := by simpa [hinit] using hwell.2
  rw [List.append_assoc] at hp
  refine ⟨?_, ?_⟩
  · rcases h : v.type with _ | type | ident <;> rw [h] at hts
    · obtain rfl := fits_nil_iff.1 hts
      simp [Parser.isPunctuation, Parser.Reads.current hp, Token.isPunctuation]
    all_goals
      obtain ⟨l', _, rfl, -⟩ := fits_word_iff.1 hts
      simp [Parser.isPunctuation, Parser.Reads.current hp, Token.isPunctuation]
  · unfold param
    refine (succeeds_typeRef? hts hp).bind ?_
    rintro type q₁ ⟨htype, hq₁⟩
    refine (succeeds_identifier hq₁).bind ?_
    rintro _ q₂ ⟨rfl, hq₂⟩
    refine (succeeds_declare hq₂ _).bind fun id q₃ hq₃ => ?_
    refine Succeeds.get (Succeeds.pure ⟨?_, hq₃⟩)
    simp only [Variable.relabel, htype, hinit, hconst]
    rfl

theorem succeeds_spelled_params {vars : List Variable} (hvars : ∀ v ∈ vars, v.WellFormedParam)
    (h : p.Spells (.punct "(" :: (Variable.paramsSpelling vars ++ .punct ")" :: ms)))
    (hn : (Variable.paramsSpelling vars).length < n) :
    (params (nested .standard n)).Succeeds p fun vars' q =>
      vars'.map (Variable.relabel .plain) = vars.map (Variable.relabel .plain) ∧ q.Spells ms := by
  unfold params
  refine (succeeds_spelled_punctuation h).bind ?_
  rintro _ q ⟨ts, hfits, hq⟩
  obtain ⟨us, vs, rfl, hus, hvs⟩ := fits_append_iff.1 hfits
  obtain ⟨r, ws, rfl, hws⟩ := fits_word_iff.1 hvs
  refine (succeeds_separated (readsItem_param (us.length + ws.length + 1))
    (separated_params_of_fits hvars hus) ?_ (Nat.lt_succ_self _) hq).bind ?_
  · rw [List.Forall₂.length_eq hus]
    exact hn
  · rintro vars' q₁ ⟨hvars', hq₁⟩
    refine (succeeds_punctuation hq₁).bind ?_
    rintro _ q₂ ⟨_, hq₂⟩
    exact Succeeds.pure ⟨hvars', ws, hws, hq₂⟩

/-- An expression in parentheses is read. -/
theorem succeeds_spelled_condition {c : Expr} (hc : c.WellShaped)
    (h : p.Spells (.punct "(" :: (c.spelling ++ .punct ")" :: ms)))
    (hn : 3 * (c.spelling ++ .punct ")" :: ms).length + 3 ≤ n) :
    (condition (nested .standard n)).Succeeds p fun e q => e.bare = c.bare ∧ q.Spells ms := by
  unfold condition
  refine (succeeds_spelled_punctuation h).bind fun _ q₁ hq₁ => ?_
  refine (succeeds_spelled_expression hc hq₁ hn rfl rfl).bind ?_
  rintro e q₂ ⟨he, hq₂⟩
  exact (succeeds_spelled_punctuation hq₂).bind fun _ q₃ hq₃ => Succeeds.pure ⟨he, hq₃⟩

/-- An expression that may be missing is read up to the mark that shows that it is. -/
theorem succeeds_spelled_unlessAt {c : Option Expr} {mark : String}
    (hc : ∀ e, c = some e → e.WellShaped) (h : p.Spells (Expr.spelling? c ++ .punct mark :: ms))
    (hn : 3 * (Expr.spelling? c ++ .punct mark :: ms).length + 3 ≤ n) (hmark : mark ∉ startMarks)
    (hs : standardOperators.after? mark = none) (hr : standardOperators.between? mark = none) :
    (unlessAt mark (nested .standard n)).Succeeds p fun c' q =>
      c'.map Expr.bare = c.map Expr.bare ∧ q.Spells (.punct mark :: ms) := by
  refine Succeeds.get ?_
  cases c with
  | none =>
    rw [if_pos h.isPunctuation]
    exact Succeeds.pure ⟨rfl, h⟩
  | some e =>
    obtain ⟨m, ns, heq, hm⟩ := e.starts_spelling
    have hgo : p.isPunctuation mark = false :=
      h.isPunctuation_eq_false (by simpa [Expr.spelling?, heq] using hm.ne_punct hmark)
    rw [if_neg (by simp [hgo])]
    refine Succeeds.map ((succeeds_spelled_expression (hc e rfl) h hn hs hr).mono ?_)
    rintro e' q ⟨he', hq⟩
    exact ⟨congrArg some he', hq⟩

end Parse

end Rill
