import Calculator.Proofs.Forests
import Calculator.Proofs.Groups
import Calculator.Proofs.Parentheses

/-! What the two stacks hold.

Between two tokens the stacks say how the text so far has been understood
(`Engine.Represents`). The left parentheses among what is pending are those that the text has
not closed. Between them operators lie on each other that bind tighter and tighter, never more
than two. All of it lies in the order of the text, each entry at its own place. And there is an
operand for each one of the text but for those that operators have used up. A step keeps the
stacks so (`Engine.layered_of_step`), and so they are all along (`represents_of_feed`). -/
namespace Calculator

/-! ### Entries -/

namespace Pending

def position : Pending → Nat
  | .operator _ i | .leftParen i => i

def isOperator : Pending → Bool
  | .operator _ _ => true
  | .leftParen _ => false

end Pending

/-- What a lexeme leaves on the stack of what is pending. -/
def Lexeme.entry? (l : Lexeme) : Option Pending :=
  match l.token with
  | .operator op => some (.operator op l.start)
  | .leftParen => some (.leftParen l.start)
  | _ => none

/-- What lexemes leave, in their order. -/
def entries (lexemes : List Lexeme) : List Pending := lexemes.filterMap Lexeme.entry?

section Entries
variable {l : Lexeme} {lexemes : List Lexeme}

theorem Lexeme.entry?_eq_some {entry : Pending} (h : l.entry? = some entry) :
    entry.StemsFrom l ∧ entry.position = l.start := by
  obtain ⟨token, start, stop⟩ := l
  cases token with
  | operator op => cases h; exact ⟨⟨rfl, rfl⟩, rfl⟩
  | leftParen => cases h; exact ⟨⟨rfl, rfl⟩, rfl⟩
  | _ => cases h

theorem exists_of_mem_entries {entry : Pending} (h : entry ∈ entries lexemes) :
    ∃ l ∈ lexemes, entry.StemsFrom l := by
  obtain ⟨l, hl, hentry⟩ := List.mem_filterMap.mp h
  exact ⟨l, hl, (Lexeme.entry?_eq_some hentry).1⟩

theorem entries_append (lexemes more : List Lexeme) :
    entries (lexemes ++ more) = entries lexemes ++ entries more := List.filterMap_append

/-- Entries are in the order of their lexemes. -/
theorem pairwise_entries (h : lexemes.Pairwise fun l m => l.start < m.start) :
    (entries lexemes).Pairwise fun a b => a.position < b.position := by
  refine List.pairwise_filterMap.mpr (h.imp ?_)
  intro l m hlt a ha b hb
  rwa [(Lexeme.entry?_eq_some ha).2, (Lexeme.entry?_eq_some hb).2]

end Entries

/-- Each operand of tokens has one number. -/
theorem Token.length_operands (tokens : List Token) :
    (operands tokens).length = tokens.countP fun token => decide token.IsNumber := by
  fun_induction operands tokens with
  | case1 => rfl
  | case2 f x tokens ih =>
    have hf : ¬ (Token.function f).IsNumber := id
    have hx : (Token.number x).IsNumber := trivial
    simp [ih, hf, hx]
  | case3 x tokens ih =>
    have hx : (Token.number x).IsNumber := trivial
    simp [ih, hx]
  | case4 token tokens hcall hliteral ih =>
    have hnum : ¬ token.IsNumber := by
      cases token with
      | number x => exact absurd rfl (hliteral x)
      | _ => exact id
    simp [ih, hnum]

/-! ### The engine -/

namespace Engine

/-- Each operator binds tighter than what waits right below it. -/
def Tightening : List Pending → Prop
  | [] => True
  | .leftParen _ :: pending => Tightening pending
  | .operator op _ :: pending => Shielded op.precedence pending ∧ Tightening pending

theorem Tightening.of_suffix {pending pending' : List Pending} (h : Tightening pending)
    (hsuffix : pending' <:+ pending) : Tightening pending' := by
  induction pending with
  | nil =>
    rw [List.suffix_nil.mp hsuffix]
    exact h
  | cons entry pending ih =>
    rcases List.suffix_cons_iff.mp hsuffix with rfl | hbelow
    · exact h
    · cases entry with
      | operator op i => exact ih h.2 hbelow
      | leftParen i => exact ih h hbelow

theorem length_of_reduce {op : Operator} {i : Nat} {operands operands' : List Float}
    (h : reduce op i operands = .ok operands') : operands'.length + 1 = operands.length := by
  match operands with
  | [] => cases h
  | [_] => cases h
  | b :: a :: operands =>
    obtain ⟨y, -, h⟩ := bind_eq_ok h
    cases h
    rfl

/-- Every operator that is reduced uses up an operand. -/
theorem length_of_settle {level : Nat} {operands operands' : List Float}
    {pending pending' : List Pending}
    (h : settle level operands pending = .ok (operands', pending')) :
    operands'.length + pending.countP Pending.isOperator =
      operands.length + pending'.countP Pending.isOperator := by
  replace h := settles_of_settle h
  induction h with
  | shielded _ => rfl
  | operator _ hreduce _ ih =>
    rw [List.countP_cons_of_pos rfl, ← length_of_reduce hreduce]
    omega

section Step
variable {engine engine' : Engine} {l : Lexeme}

/-- A step takes entries off the stack and then puts on it what its lexeme leaves. -/
theorem exists_kept_of_step (h : engine.step l = .ok engine') :
    ∃ kept, kept <:+ engine.pending ∧ engine'.pending = (entries [l]).reverse ++ kept ∧
      ∀ op, l.token = .operator op → Shielded op.precedence kept := by
  rcases step_cases h with ⟨f, i, x, y, _, htoken, _, rfl⟩ | ⟨_, ⟨x, htoken, rfl⟩ |
    ⟨f, htoken, rfl⟩ | ⟨op, operands, pending, htoken, hsettle, rfl⟩ | ⟨htoken, rfl⟩ |
    ⟨operands, i, pending, htoken, hsettle, rfl⟩⟩
  · exact ⟨_, List.suffix_rfl, by simp [entries, Lexeme.entry?, htoken], by simp [htoken]⟩
  · exact ⟨_, List.suffix_rfl, by simp [entries, Lexeme.entry?, htoken], by simp [htoken]⟩
  · exact ⟨_, List.suffix_rfl, by simp [entries, Lexeme.entry?, htoken], by simp [htoken]⟩
  · refine ⟨pending, suffix_of_settle hsettle, by simp [entries, Lexeme.entry?, htoken], ?_⟩
    intro op' hop
    cases htoken.symm.trans hop
    exact shielded_of_settle hsettle
  · exact ⟨_, List.suffix_rfl, by simp [entries, Lexeme.entry?, htoken], by simp [htoken]⟩
  · exact ⟨pending, (List.suffix_cons _ _).trans (suffix_of_settle hsettle),
      by simp [entries, Lexeme.entry?, htoken], by simp [htoken]⟩

/-- A number brings an operand, and an operator takes one when it is reduced. -/
theorem length_of_step (h : engine.step l = .ok engine') :
    engine'.operands.length + engine.pending.countP Pending.isOperator +
        (entries [l]).countP Pending.isOperator =
      engine.operands.length + engine'.pending.countP Pending.isOperator +
        (Token.operands [l.token]).length := by
  rcases step_cases h with ⟨f, i, x, y, _, htoken, _, rfl⟩ | ⟨_, ⟨x, htoken, rfl⟩ |
    ⟨f, htoken, rfl⟩ | ⟨op, operands, pending, htoken, hsettle, rfl⟩ | ⟨htoken, rfl⟩ |
    ⟨operands, i, pending, htoken, hsettle, rfl⟩⟩
  all_goals simp only [entries, Lexeme.entry?, htoken, Token.operands, List.filterMap_cons,
    List.filterMap_nil, List.countP_cons, List.countP_nil, List.length_cons, List.length_nil,
    Pending.isOperator, Bool.false_eq_true, ↓reduceIte]
  · omega
  · omega
  · have := length_of_settle hsettle
    omega
  · omega
  · have := length_of_settle hsettle
    rw [List.countP_cons_of_neg (by simp [Pending.isOperator])] at this
    omega

end Step

/-- What the stacks hold when these lexemes have been taken in. -/
structure Layered (seen : List Lexeme) (engine : Engine) : Prop where
  sublist : engine.pending.reverse.Sublist (entries seen)
  tightening : Tightening engine.pending
  length_eq : engine.operands.length + (entries seen).countP Pending.isOperator =
    (Token.operands (seen.map Lexeme.token)).length + engine.pending.countP Pending.isOperator

theorem layered_start : Layered [] start where
  sublist := .slnil
  tightening := trivial
  length_eq := rfl

section Run
variable {seen lexemes : List Lexeme} {engine engine' : Engine}

/-- A step keeps the stacks so. -/
theorem layered_of_step {l : Lexeme} (h : Layered seen engine)
    (hstep : engine.step l = .ok engine') : Layered (seen ++ [l]) engine' := by
  obtain ⟨kept, hsuffix, hpending, hshielded⟩ := exists_kept_of_step hstep
  refine ⟨?_, ?_, ?_⟩
  · rw [hpending, List.reverse_append, List.reverse_reverse, entries_append]
    exact ((List.reverse_prefix.mpr hsuffix).sublist.trans h.sublist).append (.refl _)
  · have hkept := h.tightening.of_suffix hsuffix
    rw [hpending]
    obtain ⟨token, start, stop⟩ := l
    cases token with
    | operator op => exact ⟨hshielded op rfl, hkept⟩
    | _ => exact hkept
  · have hlength := length_of_step hstep
    have hbefore := h.length_eq
    rw [entries_append, List.countP_append, List.map_append, List.map_singleton,
      Token.length_operands, List.countP_append, ← Token.length_operands,
      ← Token.length_operands]
    omega

/-- **The stacks are so all along.** -/
theorem layered_of_feed (h : Layered seen engine) (hfeed : engine.feed lexemes = .ok engine') :
    Layered (seen ++ lexemes) engine' := by
  induction lexemes generalizing seen engine with
  | nil =>
    cases hfeed
    rwa [List.append_nil]
  | cons l lexemes ih =>
    rw [feed_cons] at hfeed
    obtain ⟨next, hstep, hfeed⟩ := bind_eq_ok hfeed
    rw [List.append_cons]
    exact ih (layered_of_step h hstep) hfeed

end Run

/-! ### Operators in a row -/

section Tight
variable {pending : List Pending}

theorem shielded_three (pending : List Pending) : Shielded 3 pending := by
  match pending with
  | [] => trivial
  | .leftParen _ :: _ => trivial
  | .operator op _ :: _ => exact precedence_lt_three op

/-- How tight the topmost operator is bounds how many there are in a row. -/
theorem Tightening.length_le_of_shielded (h : Tightening pending) {level : Nat}
    (hlevel : Shielded (level + 1) pending) : pending.length ≤ 3 * opened pending + level := by
  induction pending generalizing level with
  | nil => exact Nat.zero_le _
  | cons entry pending ih =>
    cases entry with
    | leftParen i =>
      have hbelow := ih h (shielded_three pending)
      rw [List.length_cons, opened]
      omega
    | operator op i =>
      obtain ⟨looser, hop⟩ := Nat.exists_eq_add_of_le' (loosest_le op)
      have hlt : op.precedence < level + 1 := hlevel
      have hshielded := h.1
      rw [hop] at hshielded
      have hbelow := ih h.2 hshielded
      rw [hop, loosest] at hlt
      rw [List.length_cons, opened]
      omega

theorem Tightening.length_le (h : Tightening pending) : pending.length ≤ 3 * opened pending + 2 :=
  h.length_le_of_shielded (shielded_three pending)

/-- Operators in a row, from the top, bind looser and looser. -/
theorem Tightening.pairwise {group : List (Operator × Nat)}
    (h : Tightening (group.map (fun e => .operator e.1 e.2) ++ pending)) :
    (group.map fun e => e.1.precedence).Pairwise (· > ·) := by
  refine List.isChain_iff_pairwise.mp ?_
  induction group with
  | nil => exact .nil
  | cons e group ih =>
    cases group with
    | nil => exact .singleton _
    | cons next group => exact .cons_cons h.1 (ih h.2)

/-- There are only two kinds of precedence. -/
theorem length_le_two {group : List (Operator × Nat)}
    (h : (group.map fun e => e.1.precedence).Pairwise (· < ·)) : group.length ≤ 2 := by
  match group with
  | [] | [_] | [_, _] => simp
  | first :: second :: third :: group =>
    have hfirst := loosest_le first.1
    have hthird := precedence_lt_three third.1
    simp only [List.map_cons, List.pairwise_cons, List.mem_cons] at h
    have hlow := h.1 _ (.inl rfl)
    have hhigh := h.2.1 _ (.inl rfl)
    rw [loosest] at hfirst
    omega

/-- So from the bottom they bind tighter and tighter. -/
theorem Tightening.groups (h : Tightening pending) {below above : List Pending}
    {group : List (Operator × Nat)}
    (hpending : pending.reverse = below ++ group.map (fun e => .operator e.1 e.2) ++ above) :
    (group.map fun e => e.1.precedence).Pairwise (· < ·) ∧ group.length ≤ 2 := by
  have hstack : pending =
      above.reverse ++ (group.reverse.map (fun e => .operator e.1 e.2) ++ below.reverse) := by
    rw [← List.reverse_reverse pending, hpending]
    simp
  rw [hstack] at h
  have hpairs := (h.of_suffix (List.suffix_append _ _)).pairwise
  rw [List.map_reverse, List.pairwise_reverse] at hpairs
  exact ⟨hpairs, length_le_two hpairs⟩

end Tight

/-! ### Operators that wait no longer -/

/-- The operators among the lexemes that wait no longer. -/
def reduced (seen : List Lexeme) (engine : Engine) : List Pending :=
  ((entries seen).filter Pending.isOperator).filter (· ∉ engine.pending)

/-- Each of them has used up an operand of the text. -/
theorem Layered.length_reduced {seen : List Lexeme} {engine : Engine} (h : Layered seen engine)
    (hnodup : (entries seen).Nodup) :
    engine.operands.length + (reduced seen engine).length =
      (Token.operands (seen.map Lexeme.token)).length := by
  have hpending : engine.pending.Nodup := List.nodup_reverse.mp (h.sublist.nodup hnodup)
  -- Those that still wait are the operators on the stack.
  have hwait : (((entries seen).filter Pending.isOperator).filter (· ∈ engine.pending)).Perm
      (engine.pending.filter Pending.isOperator) := by
    refine (List.perm_ext_iff_of_nodup ((hnodup.filter _).filter _) (hpending.filter _)).mpr ?_
    intro entry
    have hmem : entry ∈ engine.pending → entry ∈ entries seen := fun hentry =>
      h.sublist.subset (List.mem_reverse.mpr hentry)
    simp only [List.mem_filter, decide_eq_true_eq]
    tauto
  have hsplit := List.length_eq_length_filter_add (l := (entries seen).filter Pending.isOperator)
    (fun entry => decide (entry ∈ engine.pending))
  have hlength := h.length_eq
  rw [hwait.length_eq] at hsplit
  rw [List.countP_eq_length_filter, List.countP_eq_length_filter] at hlength
  simp only [reduced, decide_not]
  omega

end Engine

/-! ### Parentheses that are open -/

/-- A left parenthesis is closed if the count of what is open behind it fails. -/
theorem closed_iff {after : List Char} :
    Closed after ↔ Token.openAfter 0 (parentheses after) = none := by
  constructor
  · rintro ⟨inner, rest, rfl, hinner⟩
    cases hopen : Token.openAfter 0 (parentheses (inner ++ ')' :: rest)) with
    | none => rfl
    | some m => exact absurd hinner.exceeds (not_exceeds hopen rfl)
  · intro hnone
    by_contra hopen
    -- If nothing closes it, at no place more has been closed than opened.
    have hle : ∀ front, front <+: after → front.count ')' ≤ 0 + front.count '(' := by
      rintro front ⟨more, rfl⟩
      by_contra hlt
      obtain ⟨inner, rest, rfl, hinner⟩ := exists_closing (Nat.not_le.mp hlt)
      exact hopen ⟨inner, rest ++ more, by simp, paired_iff.mpr hinner⟩
    have hcount := hle after (List.prefix_refl after)
    have hsome : Token.openAfter 0 (parentheses after) =
        some (after.count '(' - after.count ')') :=
      openAfter_eq_some_iff.mpr ⟨hle, by omega⟩
    rw [hnone] at hsome
    cases hsome

/-- A left parenthesis that nothing closes has no partner. -/
theorem Token.not_balanced_of_open {before after : List Token} {m : Nat}
    (h : openAfter 0 after = some m) : ¬ Balanced (before ++ .leftParen :: after) := by
  intro hbalanced
  rw [Balanced, openAfter_append] at hbalanced
  obtain ⟨n, -, hbalanced⟩ := Option.bind_eq_some_iff.mp hbalanced
  have hopen := openAfter_add h (n + 1)
  rw [Nat.zero_add] at hopen
  rw [openAfter_cons] at hbalanced
  cases hopen.symm.trans hbalanced

/-- The left parentheses that stay open are those that nothing behind them closes. -/
theorem Unclosed.mem_iff {lexemes : List Lexeme} {places : List Nat} (h : Unclosed lexemes places)
    {i : Nat} :
    i ∈ places ↔ ∃ before l after, lexemes = before ++ l :: after ∧ l.token = .leftParen ∧
      l.start = i ∧ ∃ m, Token.openAfter 0 (after.map Lexeme.token) = some m := by
  constructor
  · intro hi
    induction h with
    | balanced => cases hi
    | @leftParen before after l places _ hl hafter ih =>
      rcases List.mem_cons.mp hi with rfl | hi
      · exact ⟨before, l, after, rfl, hl, rfl, 0, hafter⟩
      · obtain ⟨front, first, rest, rfl, hfirst, hplace, m, hopen⟩ := ih hi
        refine ⟨front, first, rest ++ l :: after, by simp, hfirst, hplace, m + 1, ?_⟩
        rw [List.map_append, Token.openAfter_append, hopen, List.map_cons, hl]
        exact hafter.openAfter_eq (m + 1)
  · rintro ⟨front, first, rest, hlexemes, hfirst, rfl, m, hopen⟩
    induction h generalizing front rest m with
    | balanced hbalanced =>
      rw [hlexemes, List.map_append, List.map_cons, hfirst] at hbalanced
      exact absurd hbalanced (Token.not_balanced_of_open hopen)
    | @leftParen before after l places _ hl hafter ih =>
      rcases List.append_eq_append_iff.mp hlexemes with ⟨_ | ⟨_, more⟩, hfront, hrest⟩ |
        ⟨_ | ⟨_, more⟩, hbefore, hrest⟩
      · cases hrest
        exact List.mem_cons_self
      · -- Behind the latest one all is balanced.
        rw [List.cons_append] at hrest
        obtain ⟨rfl, rfl⟩ := List.cons.inj hrest
        rw [List.map_append, List.map_cons, hfirst] at hafter
        exact absurd hafter (Token.not_balanced_of_open hopen)
      · cases hrest
        exact List.mem_cons_self
      · rw [List.cons_append] at hrest
        obtain ⟨rfl, rfl⟩ := List.cons.inj hrest
        rw [List.map_append, Token.openAfter_append] at hopen
        obtain ⟨n, hmore, -⟩ := Option.bind_eq_some_iff.mp hopen
        exact List.mem_cons_of_mem _ (ih front more hbefore n hmore)

/-! ### The text so far -/

theorem Token.Breaks.of_append {text more : List Char} (h : Breaks (text ++ more)) :
    Breaks text := by
  cases text with
  | nil => exact nofun
  | cons c text => exact h

/-- The text up to a lexeme is read by itself as the lexemes up to there. -/
theorem Reads.exists_consumed {start : Nat} {text : List Char} {lexed : Lexed}
    (h : Reads start text lexed) {front rest : List Lexeme}
    (hlexemes : lexed.lexemes = front ++ rest) :
    ∃ consumed remaining, text = consumed ++ remaining ∧
      Reads start consumed ⟨front, .complete (start + width consumed)⟩ ∧
      start + width consumed = front.getLast?.elim start Lexeme.stop := by
  induction h generalizing front with
  | complete | malformed | invalid =>
    obtain ⟨rfl, -⟩ := List.append_eq_nil_iff.mp hlexemes.symm
    exact ⟨[], _, rfl, .complete rfl, rfl⟩
  | @token start piece after lexed hrest hreads ih =>
    cases front with
    | nil => exact ⟨[], _, rfl, .complete rfl, rfl⟩
    | cons first front =>
      obtain ⟨rfl, htail⟩ := List.cons.inj hlexemes
      obtain ⟨consumed, remaining, rfl, hconsumed, hlast⟩ := ih htail
      refine ⟨piece.text ++ consumed, remaining, by simp, ?_, ?_⟩
      · rw [width_append, ← Nat.add_assoc]
        exact .token piece (fun hnum => (hrest hnum).of_append) hconsumed
      · rw [width_append, ← Nat.add_assoc, hlast, List.getLast?_cons]
        cases front.getLast? <;> rfl

/-- A left parenthesis in a text is one of its lexemes, and divides them as it does the text. -/
theorem Reads.exists_leftParen {before after : List Char} {lexemes : List Lexeme} {stop : Nat}
    (h : Reads 0 (before ++ '(' :: after) ⟨lexemes, .complete stop⟩) :
    ∃ first l rest, lexemes = first ++ l :: rest ∧ l.token = .leftParen ∧
      l.start = width before ∧
      parentheses after = (rest.map Lexeme.token).filter Token.isParenthesis := by
  have hlex := h.lexFrom_eq
  rw [lexFrom_append delimits_leftParen] at hlex
  rcases hbefore : lexFrom before 0 [] with ⟨first, ending⟩
  rw [hbefore] at hlex
  cases ending with
  | fault cause i => cases hlex
  | complete place =>
    have hplace : place = width before := by
      rw [stop_of_complete (congrArg Lexed.ending hbefore), Nat.zero_add]
    replace hlex : (lexFrom ('(' :: after) place []).after first = ⟨lexemes, .complete stop⟩ := hlex
    rw [lexFrom_leftParen] at hlex
    have hafter := reads_lexFrom after (place + 1)
    generalize lexFrom after (place + 1) [] = lexed at hlex hafter
    obtain ⟨rest, ending⟩ := lexed
    cases hlex
    exact ⟨first, _, rest, rfl, rfl, hplace, hafter.parentheses_eq ⟨stop, rfl⟩⟩

/-! ### Sources -/

/-- What the stacks hold when this much of a text has been taken in. -/
structure Engine.Represents (consumed : List Char) (seen : List Lexeme) (engine : Engine) :
    Prop where
  /-- The left parentheses are those of the text that nothing closes. -/
  leftParen_iff : ∀ i, .leftParen i ∈ engine.pending ↔ ∃ before after,
    consumed = before ++ '(' :: after ∧ i = width before ∧ ¬ Closed after
  /-- The operators stand in the text where their entries say. -/
  operator : ∀ op i, .operator op i ∈ engine.pending → ∃ before after,
    consumed = before ++ op.symbol :: after ∧ i = width before
  /-- From the bottom to the top the entries are in the order of the text. -/
  positions : engine.pending.reverse.Pairwise fun a b => a.position < b.position
  /-- Operators with no parenthesis between them bind tighter and tighter. -/
  groups : ∀ below (group : List (Operator × Nat)) above,
    engine.pending.reverse = below ++ group.map (fun e => .operator e.1 e.2) ++ above →
      (group.map fun e => e.1.precedence).Pairwise (· < ·) ∧ group.length ≤ 2
  count_eq : consumed.count '(' = opened engine.pending + consumed.count ')'
  length_le : engine.pending.length ≤ 3 * opened engine.pending + 2
  /-- An operand is there for each one of the text, but for those that operators which wait no
  longer have used up. -/
  operands : engine.operands.length + (reduced seen engine).length =
    (Token.operands (seen.map Lexeme.token)).length

namespace Engine

theorem mem_leftParens {i : Nat} {pending : List Pending} :
    i ∈ leftParens pending ↔ .leftParen i ∈ pending := by
  induction pending with
  | nil => simp [leftParens]
  | cons entry pending ih => cases entry <;> simp [leftParens, ih]

end Engine

section Consumed
variable {consumed : List Char} {front : List Lexeme} {engine : Engine}

/-- The left parentheses that wait are those of the text that nothing closes. -/
theorem leftParen_iff_of_feed (hreads : Reads 0 consumed ⟨front, .complete (width consumed)⟩)
    (hfeed : Engine.start.feed front = .ok engine) (i : Nat) :
    .leftParen i ∈ engine.pending ↔ ∃ before after,
      consumed = before ++ '(' :: after ∧ i = width before ∧ ¬ Closed after := by
  have hstart : Unclosed [] (Engine.leftParens Engine.start.pending) := .balanced rfl
  have hunclosed : Unclosed front (Engine.leftParens engine.pending) :=
    Engine.unclosed_of_feed hstart hfeed
  rw [← Engine.mem_leftParens, hunclosed.mem_iff]
  constructor
  · rintro ⟨first, l, rest, hlexemes, hl, rfl, m, hopen⟩
    obtain ⟨before, word, after, htext, hstart, hspells, -, hafter⟩ := hreads.exists_split hlexemes
    rw [hl] at hspells
    rw [Token.eq_of_spells_symbol hspells rfl, List.append_assoc] at htext
    refine ⟨before, after, htext, by rw [hstart, Nat.zero_add], ?_⟩
    rw [closed_iff, hafter ⟨_, rfl⟩, Token.openAfter_filter, hopen]
    exact nofun
  · rintro ⟨before, after, rfl, rfl, hclosed⟩
    obtain ⟨first, l, rest, hlexemes, hl, hplace, hafter⟩ := hreads.exists_leftParen
    refine ⟨first, l, rest, hlexemes, hl, hplace, ?_⟩
    rw [closed_iff, hafter, Token.openAfter_filter] at hclosed
    exact Option.ne_none_iff_exists'.mp hclosed

/-- Lexemes leave their entries in the order of the text. -/
theorem Reads.pairwise_entries (hreads : Reads 0 consumed ⟨front, .complete (width consumed)⟩) :
    (entries front).Pairwise fun a b => a.position < b.position := by
  have hlt : ∀ l ∈ front, l.start < l.stop := fun l hl =>
    (hreads.standsIn width_nil.symm (joint_nil consumed) l hl).lt
  refine Calculator.pairwise_entries
    (((hreads.gapped width_nil.symm).pairwise hlt).2.imp_of_mem ?_)
  intro l m hl _ hle
  exact Nat.lt_of_lt_of_le (hlt l hl) hle

/-- The entry of an operator says where it stands. -/
theorem Reads.exists_symbol (hreads : Reads 0 consumed ⟨front, .complete (width consumed)⟩)
    {op : Operator} {i : Nat} (hmem : .operator op i ∈ entries front) :
    ∃ before after, consumed = before ++ op.symbol :: after ∧ i = width before := by
  obtain ⟨l, hl, hop, rfl⟩ := exists_of_mem_entries hmem
  obtain ⟨before, word, after, htext, hstart, -, hspells, -⟩ :=
    hreads.standsIn width_nil.symm (joint_nil consumed) l hl
  rw [hop] at hspells
  rw [Token.eq_of_spells_symbol hspells rfl, List.append_assoc] at htext
  exact ⟨before, after, htext, hstart⟩

theorem represents_of_reads (hreads : Reads 0 consumed ⟨front, .complete (width consumed)⟩)
    (hfeed : Engine.start.feed front = .ok engine) : engine.Represents consumed front := by
  have hlayered : Engine.Layered front engine := Engine.layered_of_feed Engine.layered_start hfeed
  have hordered := hreads.pairwise_entries
  have hnodup : (entries front).Nodup :=
    hordered.imp fun hab => ne_of_apply_ne Pending.position (Nat.ne_of_lt hab)
  have hopen : Token.openAfter 0 (parentheses consumed) = some (Engine.opened engine.pending) := by
    rw [hreads.parentheses_eq ⟨_, rfl⟩, Token.openAfter_filter]
    exact Engine.openAfter_of_feed hfeed
  constructor
  · exact leftParen_iff_of_feed hreads hfeed
  · intro op i hmem
    exact hreads.exists_symbol (hlayered.sublist.subset (List.mem_reverse.mpr hmem))
  · exact hordered.sublist hlayered.sublist
  · intro below group above hpending
    exact hlayered.tightening.groups hpending
  · rw [← (openAfter_eq_some_iff.mp hopen).2, Nat.zero_add]
  · exact hlayered.tightening.length_le
  · exact hlayered.length_reduced hnodup

end Consumed

/-- **What the stacks hold between two tokens.** -/
theorem represents_of_feed {source : String} {front rest : List Lexeme} {engine : Engine}
    (hlexemes : (lex source).lexemes = front ++ rest)
    (hfeed : Engine.start.feed front = .ok engine) :
    ∃ consumed remaining, source.toList = consumed ++ remaining ∧
      lex (String.ofList consumed) = ⟨front, .complete (width consumed)⟩ ∧
      width consumed = front.getLast?.elim 0 Lexeme.stop ∧ engine.Represents consumed front := by
  obtain ⟨consumed, remaining, htext, hreads, hlast⟩ :=
    (reads_lexFrom source.toList 0).exists_consumed hlexemes
  rw [Nat.zero_add] at hreads hlast
  have hlex : lex (String.ofList consumed) = ⟨front, .complete (width consumed)⟩ := by
    rw [lex, String.toList_ofList]
    exact hreads.lexFrom_eq
  exact ⟨consumed, remaining, htext, hlex, hlast, represents_of_reads hreads hfeed⟩

/-- The stack is as high as it can be with two parentheses open: a third has been closed, and of
the two products in the outer one the first has been reduced. That the text goes on to a division
by zero makes no difference. -/
def crowdedText : String := "√4-(2)*(1+2*3*(1+4*5)/0"

def crowdedEngine : Engine where
  operands := [5, 4, 1, 6, 1, 2, 2]
  pending :=
    [.operator .mul 20, .operator .add 18, .leftParen 16, .operator .mul 15, .operator .add 11,
      .leftParen 9, .operator .mul 8, .operator .sub 4]
  waiting := none

theorem represents_of_feed_crowded :
    Engine.start.feed ((lex crowdedText).lexemes.take 20) = .ok crowdedEngine ∧
      ∃ consumed remaining, crowdedText.toList = consumed ++ remaining ∧
        lex (String.ofList consumed) =
          ⟨(lex crowdedText).lexemes.take 20, .complete (width consumed)⟩ ∧
        width consumed = ((lex crowdedText).lexemes.take 20).getLast?.elim 0 Lexeme.stop ∧
        crowdedEngine.Represents consumed ((lex crowdedText).lexemes.take 20) := by
  have h : Engine.start.feed ((lex crowdedText).lexemes.take 20) = .ok crowdedEngine := by
    decide +kernel
  exact ⟨h, represents_of_feed (List.take_append_drop 20 _).symm h⟩

end Calculator
