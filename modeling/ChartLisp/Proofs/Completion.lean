import ChartLisp.Proofs.Grammar

/-!
# Where a token sequence stops being the beginning of a program

As long as the parser goes on, what it has read can still become a program: closing what is open
completes it, unless too much is open already.  Where the parser gives up, nothing can.  So an error
is found at the first token that cannot be made good, and is reported on the line of that token.

* `Token.Emitted`     tokens that some source has
* `Completable`       sequences that such tokens complete to a program
* `unmatched`         how many opening parentheses of a sequence are not closed
* `State.depth`       the same number, read off a state of the parser
* `step_stepped`      one token: the depth follows the parentheses, or the token is refused on its
                      line; `run_depth` and `run_error` say so of a whole sequence
* `State.completes`   a state that is not too deep can be completed
* `parse_line`        what the parser says of a sequence, and on which line
-/

namespace ChartLisp

/-- a token that some source has -/
def Token.Emitted (t : Token) : Prop :=
  ∃ (source : String) (ts : List Placed), Token.scan source = .ok ts ∧ t ∈ ts.map Placed.token

/-- the line that an error is reported on -/
def ParseError.line? : ParseError → Option Nat
  | .noTokens => none
  | .misplaced _ line => some line
  | .unbalanced line => some line
  | .unfinished line => some line
  | .trailing _ line => some line
  | .malformedNumber _ line => some line
  | .bare _ line => some line
  | .unclosedString line => some line
  | .tooDeep line => some line
  | .notText => none

namespace Program

/-- some tokens, all of which a source can have, complete the sequence to a program -/
def Completable (ts : List Placed) : Prop :=
  ∃ us : List Placed, (∀ t ∈ us, t.token.Emitted) ∧ ∃ e, parse (ts ++ us) = .ok e

/-- how many opening parentheses are not closed, after one more token -/
def nesting (n : Nat) (t : Placed) : Nat :=
  match t.token with
  | .opening => n + 1
  | .closing => n - 1
  | _ => n

/-- how many opening parentheses of the sequence are not closed in it -/
def unmatched (ts : List Placed) : Nat := ts.foldl nesting 0

/-- the number of parentheses that are open -/
def State.depth : State → Nat
  | .building nodes true => nodes.length + 1
  | .building nodes false => nodes.length
  | .done _ => 0

/-! ## One token -/

/-- The parser goes on, `n` parentheses deep, or refuses a token on the given line.  That the tokens
end too early is never the reason. -/
inductive Stepped (n line : Nat) : Except ParseError State → Prop where
  | ok {s : State} (h : s.depth = n) : Stepped n line (.ok s)
  | refused {err : ParseError} (hline : err.line? = some line) (hne : ∀ m, err ≠ .unfinished m) :
      Stepped n line (.error err)

theorem putAtom_stepped (a : Atom) (t : Placed) (nodes : List Open) (atHead : Bool) :
    Stepped (State.building nodes atHead).depth t.line (putAtom a t nodes atHead) := by
  unfold putAtom
  cases atHead with
  | true =>
    by_cases hroom : nestingLimit ≤ nodes.length
    · rw [if_pos rfl, if_pos hroom]
      exact .refused rfl nofun
    · rw [if_pos rfl, if_neg hroom]
      exact .ok rfl
  | false =>
    cases nodes with
    | nil => exact .refused rfl nofun
    | cons o nodes => exact .ok rfl

theorem closeNode_stepped (line : Nat) (nodes : List Open) :
    Stepped (nodes.length - 1) line (closeNode line nodes) := by
  cases nodes with
  | nil => exact .refused rfl nofun
  | cons o nodes =>
    rw [closeNode_cons]
    cases nodes with
    | nil => exact .ok rfl
    | cons parent nodes => exact .ok rfl

theorem step_stepped (s : State) (t : Placed) : Stepped (nesting s.depth t) t.line (step s t) := by
  cases s with
  | done _ => exact .refused rfl nofun
  | building nodes atHead =>
    obtain ⟨token, line⟩ := t
    cases token with
    | opening =>
      cases atHead with
      | true => exact .refused rfl nofun
      | false => exact .ok rfl
    | closing =>
      cases atHead with
      | true => exact .refused rfl nofun
      | false => exact closeNode_stepped line nodes
    | string text =>
      rw [step_atom (.string text)]
      exact putAtom_stepped _ _ nodes atHead
    | unclosed => exact .refused rfl nofun
    | word w =>
      cases hw : Atom.ofWord? w with
      | some a =>
        rw [step_atom (.word hw)]
        exact putAtom_stepped a _ nodes atHead
      | none =>
        rw [step_malformed hw]
        exact .refused rfl nofun
    | blank => exact .ok rfl

/-! ## A whole sequence -/

/-- the depth is the number of parentheses that are not closed, along every run -/
theorem run_depth {ts : List Placed} {s s' : State} (h : ts.foldlM step s = .ok s') :
    s'.depth = ts.foldl nesting s.depth := by
  induction ts generalizing s with
  | nil =>
    cases h
    rfl
  | cons t ts ih =>
    have hstep := step_stepped s t
    rw [List.foldlM_cons] at h
    cases ht : step s t with
    | error e =>
      rw [ht] at h
      cases h
    | ok s₁ =>
      rw [ht] at h hstep
      cases hstep with
      | ok hdepth => rw [ih h, hdepth, List.foldl_cons]

/-- a sequence that is given up is given up at one of its tokens, and not before -/
theorem run_error {ts : List Placed} {s : State} {err : ParseError}
    (h : ts.foldlM step s = .error err) :
    ∃ (k : Nat) (hk : k < ts.length) (s' : State),
      (ts.take k).foldlM step s = .ok s' ∧ step s' ts[k] = .error err := by
  induction ts generalizing s with
  | nil => cases h
  | cons t ts ih =>
    rw [List.foldlM_cons] at h
    cases ht : step s t with
    | error e =>
      rw [ht] at h
      cases h
      exact ⟨0, Nat.zero_lt_succ _, s, rfl, ht⟩
    | ok s₁ =>
      rw [ht] at h
      obtain ⟨k, hk, s', hrun, hstep⟩ := ih h
      refine ⟨k + 1, Nat.succ_lt_succ hk, s', ?_, hstep⟩
      rw [List.take_succ_cons, foldlM_cons_ok ht]
      exact hrun

/-- what has been read on the way to a state has been read without an error -/
theorem run_append_ok {ts us : List Placed} {s s' : State} (h : (ts ++ us).foldlM step s = .ok s') :
    ∃ s₁, ts.foldlM step s = .ok s₁ := by
  rw [List.foldlM_append] at h
  cases hs : ts.foldlM step s with
  | ok s₁ => exact ⟨s₁, rfl⟩
  | error err =>
    rw [hs] at h
    cases h

theorem parse_of_run_ok {ts : List Placed} (hne : ts ≠ []) {s : State}
    (h : ts.foldlM step (.building [] false) = .ok s) :
    (∃ e, parse ts = .ok e) ∨ parse ts = .error (.unfinished (ts.getLast hne).line) := by
  have hempty : ts.isEmpty = false := by simpa using hne
  have hlast : lastLine ts = (ts.getLast hne).line := by
    rw [lastLine, List.getLast?_eq_some_getLast hne]
    rfl
  unfold parse
  rw [hempty, h, hlast]
  cases s with
  | done e => exact .inl ⟨e, rfl⟩
  | building nodes atHead => exact .inr rfl

theorem parse_of_run_error {ts : List Placed} {err : ParseError}
    (h : ts.foldlM step (.building [] false) = .error err) : parse ts = .error err := by
  cases ts with
  | nil => cases h
  | cons t ts =>
    show ((t :: ts).foldlM step (.building [] false) >>= _) = _
    rw [h]
    rfl

/-! ## What is open can be closed -/

theorem opening_emitted : Token.Emitted .opening := ⟨"(", _, rfl, List.mem_cons_self⟩

theorem closing_emitted : Token.Emitted .closing := ⟨")", _, rfl, List.mem_cons_self⟩

theorem word_emitted : Token.Emitted (.word "f") := ⟨"f", _, rfl, List.mem_cons_self⟩

/-- tokens of sources lead from the state to a program -/
def State.Completes (s : State) : Prop :=
  ∃ us : List Placed, (∀ t ∈ us, t.token.Emitted) ∧ ∃ e, us.foldlM step s = .ok (.done e)

theorem State.Completes.step {s s' : State} {t : Placed} (ht : t.token.Emitted)
    (hs : Program.step s t = .ok s') (h : s'.Completes) : s.Completes := by
  obtain ⟨us, hus, e, he⟩ := h
  refine ⟨t :: us, List.forall_mem_cons.mpr ⟨ht, hus⟩, e, ?_⟩
  rw [foldlM_cons_ok hs]
  exact he

/-- closing parentheses, as many as there are open nodes -/
theorem completes_inside (o : Open) (nodes : List Open) :
    (State.building (o :: nodes) false).Completes := by
  induction nodes generalizing o with
  | nil =>
    have hclose : step (.building [o] false) ⟨.closing, 1⟩ = .ok (.done o.close) := rfl
    exact .step closing_emitted hclose ⟨[], List.forall_mem_nil _, o.close, rfl⟩
  | cons parent nodes ih =>
    have hclose : step (.building (o :: parent :: nodes) false) ⟨.closing, 1⟩ =
        .ok (.building (parent.push o.close :: nodes) false) := rfl
    exact .step closing_emitted hclose (ih (parent.push o.close))

/-- a head and then closing parentheses; with too many nodes open the head would be refused -/
theorem completes_atHead {nodes : List Open} (h : nodes.length < nestingLimit) :
    (State.building nodes true).Completes := by
  have hreads : Reads (.word "f") (.symbol "f") := .word rfl
  have hhead : step (.building nodes true) ⟨.word "f", 1⟩ =
      .ok (.building (⟨.symbol "f", []⟩ :: nodes) false) := step_head hreads h
  exact .step word_emitted hhead (completes_inside ⟨.symbol "f", []⟩ nodes)

theorem State.completes {s : State} (h : s.depth ≤ nestingLimit) : s.Completes := by
  cases s with
  | done e => exact ⟨[], List.forall_mem_nil _, e, rfl⟩
  | building nodes atHead =>
    cases atHead with
    | true => exact completes_atHead h
    | false =>
      cases nodes with
      | nil =>
        have hopen : step (.building [] false) ⟨.opening, 1⟩ = .ok (.building [] true) := rfl
        exact .step opening_emitted hopen (completes_atHead (by decide))
      | cons o nodes => exact completes_inside o nodes

theorem completable_of_run {ts : List Placed} {s : State}
    (h : ts.foldlM step (.building [] false) = .ok s) (hd : unmatched ts ≤ nestingLimit) :
    Completable ts := by
  have hdepth : s.depth = unmatched ts := run_depth h
  obtain ⟨us, hus, e, he⟩ := State.completes (hdepth ▸ hd)
  refine ⟨us, hus, e, parse_eq_ok.mpr ?_⟩
  rw [foldlM_append_ok h]
  exact he

theorem run_of_completable {ts : List Placed} (h : Completable ts) :
    ∃ s, ts.foldlM step (.building [] false) = .ok s := by
  obtain ⟨us, _, e, he⟩ := h
  exact run_append_ok (parse_eq_ok.mp he)

/-- A sequence that can be completed to a program is one, or ends too early, which is reported on
the line of its last token.  Of any other sequence the parser refuses the first token with which it
cannot be completed any more, on the line of that token.  No more parentheses may be open at any
point than nodes may be: beyond that the parser waits for the head of the node before it refuses
it. -/
theorem parse_line {ts : List Placed} (hne : ts ≠ [])
    (hd : ∀ k ≤ ts.length, unmatched (ts.take k) ≤ nestingLimit) :
    (Completable ts →
      (∃ e, parse ts = .ok e) ∨ parse ts = .error (.unfinished (ts.getLast hne).line)) ∧
    (¬ Completable ts →
      ∃ (err : ParseError) (k : Nat) (hk : k < ts.length),
        parse ts = .error err ∧ (∀ n, err ≠ .unfinished n) ∧ err.line? = some ts[k].line ∧
        ¬ Completable (ts.take (k + 1)) ∧ ∀ j < k, Completable (ts.take (j + 1))) := by
  constructor
  · intro hc
    obtain ⟨s, hs⟩ := run_of_completable hc
    exact parse_of_run_ok hne hs
  · intro hc
    cases hrun : ts.foldlM step (.building [] false) with
    | ok s =>
      have hall := hd ts.length (Nat.le_refl _)
      rw [List.take_length] at hall
      exact absurd (completable_of_run hrun hall) hc
    | error err =>
      obtain ⟨k, hk, s', hbefore, hat⟩ := run_error hrun
      have hstep := step_stepped s' ts[k]
      rw [hat] at hstep
      cases hstep with
      | refused hline hunf =>
        refine ⟨err, k, hk, parse_of_run_error hrun, hunf, hline, ?_, ?_⟩
        · intro hcompl
          obtain ⟨s, hs⟩ := run_of_completable hcompl
          rw [← List.take_append_getElem hk, foldlM_append_ok hbefore, List.foldlM_cons, hat] at hs
          cases hs
        · intro j hj
          have hsplit := List.take_append_drop (j + 1) (ts.take k)
          rw [List.take_take, Nat.min_eq_left hj] at hsplit
          rw [← hsplit] at hbefore
          obtain ⟨s, hs⟩ := run_append_ok hbefore
          exact completable_of_run hs (hd (j + 1) (by omega))

/-- a program whose second node is closed, on line 3, before it has a head -/
def headless : List Placed :=
  [⟨.opening, 1⟩, ⟨.word "f", 1⟩, ⟨.opening, 2⟩, ⟨.closing, 3⟩, ⟨.word "x", 4⟩]

theorem parse_headless :
    parse headless = .error (.misplaced .closing 3) ∧
    Completable (headless.take 3) ∧ ¬ Completable (headless.take 4) := by
  have hparse : parse headless = .error (.misplaced .closing 3) := rfl
  have hne : headless ≠ [] := nofun
  obtain ⟨hgood, hbad⟩ := parse_line hne (by decide)
  have hc : ¬ Completable headless := by
    intro hc
    rcases hgood hc with ⟨e, he⟩ | he
    · cases hparse.symm.trans he
    · cases hparse.symm.trans he
  obtain ⟨err, k, hk, herr, -, hline, hlost, hbefore⟩ := hbad hc
  obtain rfl : .misplaced .closing 3 = err := Except.error.inj (hparse.symm.trans herr)
  have hthird : ∀ (k : Nat) (hk : k < headless.length), headless[k].line = 3 → k = 3 := by decide
  obtain rfl : k = 3 := hthird k hk (Option.some.inj hline).symm
  exact ⟨hparse, hbefore 2 (by decide), hlost⟩

end Program

end ChartLisp
