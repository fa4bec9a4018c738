import ChartLisp.Program

/-!
# The grammar of programs

A node is an opening parenthesis, an atom, items, and a closing parenthesis; an item is an atom or a
node.  The parser is a machine that reads one token at a time with the open nodes on a stack, and it
accepts exactly the nodes of this grammar.

* `Reads`          the token stands for the atom
* `Node d`         token sequences of a node with its tree, at most `d` nodes open at once
* `Items d`        the same for sequences of items
* `Node.run`, `Items.run`   the machine accepts what the grammar derives
* `Reached`        what the machine has read when it is in a given state
* `step_reached`   one token keeps that, `run_reached` a whole sequence does
* `parse_eq_ok_iff`  the parser accepts exactly the nodes, and gives their trees
-/

namespace ChartLisp

/-- no annotation anywhere in the tree -/
inductive Expr.Plain : Expr → Prop where
  | node {a : Atom} {es : List Expr} (h : ∀ e ∈ es, Plain e) : Plain (Expr.node a es)

namespace Program

inductive Reads : Token → Atom → Prop where
  | string (s : String) : Reads (.string s) (.string s)
  | word {w : String} {a : Atom} (h : Atom.ofWord? w = some a) : Reads (.word w) a

mutual

/-- the tokens are a node with the given tree, in which at most so many nodes are open at once -/
inductive Node : Nat → List Placed → Expr → Prop where
  | mk {d : Nat} {t : Placed} {a : Atom} {ts : List Placed} {es : List Expr} (line line' : Nat)
      (ha : Reads t.token a) (hi : Items d ts es) :
      Node (d + 1) (⟨.opening, line⟩ :: t :: (ts ++ [⟨.closing, line'⟩])) (Expr.node a es)

/-- the tokens are items with the given trees, in which at most so many nodes are open at once -/
inductive Items : Nat → List Placed → List Expr → Prop where
  | nil {d : Nat} : Items d [] []
  | atom {d : Nat} {t : Placed} {a : Atom} {ts : List Placed} {es : List Expr}
      (ha : Reads t.token a) (hi : Items d ts es) : Items d (t :: ts) (Expr.leaf a :: es)
  | node {d : Nat} {ns ts : List Placed} {e : Expr} {es : List Expr}
      (hn : Node d ns e) (hi : Items d ts es) : Items d (ns ++ ts) (e :: es)

end

theorem Items.append {d : Nat} {ts us : List Placed} {es fs : List Expr} :
    Items d ts es → Items d us fs → Items d (ts ++ us) (es ++ fs)
  | .nil, h => h
  | .atom ha hi, h => .atom ha (hi.append h)
  | .node hn hi, h => by
    rw [List.append_assoc]
    exact .node hn (hi.append h)

mutual

theorem Node.plain {d : Nat} {ts : List Placed} {e : Expr} : Node d ts e → e.Plain
  | .mk _ _ _ hi => .node hi.plain

theorem Items.plain {d : Nat} {ts : List Placed} {es : List Expr} :
    Items d ts es → ∀ e ∈ es, e.Plain
  | .nil => List.forall_mem_nil _
  | .atom _ hi => List.forall_mem_cons.mpr ⟨.node (List.forall_mem_nil _), hi.plain⟩
  | .node hn hi => List.forall_mem_cons.mpr ⟨hn.plain, hi.plain⟩

end

/-! ## The machine accepts what the grammar derives -/

theorem step_atom {t : Placed} {a : Atom} (h : Reads t.token a) (nodes : List Open)
    (atHead : Bool) : step (.building nodes atHead) t = putAtom a t nodes atHead := by
  obtain ⟨token, line⟩ := t
  cases h with
  | string s => rfl
  | word hw =>
    unfold step atomOf
    dsimp only
    rw [hw]
    rfl

/-- the atom behind an opening parenthesis heads a new node -/
theorem step_head {t : Placed} {a : Atom} (h : Reads t.token a) {nodes : List Open}
    (hroom : nodes.length < nestingLimit) :
    step (.building nodes true) t = .ok (.building (⟨a, []⟩ :: nodes) false) := by
  rw [step_atom h]
  show (if nestingLimit ≤ nodes.length then _ else _) = _
  rw [if_neg (Nat.not_le_of_lt hroom)]

theorem step_malformed {w : String} (h : Atom.ofWord? w = none) (nodes : List Open) (atHead : Bool)
    (line : Nat) :
    step (.building nodes atHead) ⟨.word w, line⟩ = .error (.malformedNumber w line) := by
  unfold step atomOf
  dsimp only
  rw [h]
  rfl

/-- the state after a node is closed over the given ones -/
def attach (e : Expr) : List Open → State
  | [] => .done e
  | parent :: rest => .building (parent.push e :: rest) false

theorem closeNode_cons (line : Nat) (o : Open) (nodes : List Open) :
    closeNode line (o :: nodes) = .ok (attach o.close nodes) := by
  cases nodes <;> rfl

theorem foldlM_cons_ok {s s' : State} {t : Placed} {ts : List Placed} (h : step s t = .ok s') :
    (t :: ts).foldlM step s = ts.foldlM step s' := by
  rw [List.foldlM_cons, h]
  rfl

theorem foldlM_append_ok {s s' : State} {ts us : List Placed} (h : ts.foldlM step s = .ok s') :
    (ts ++ us).foldlM step s = us.foldlM step s' := by
  rw [List.foldlM_append, h]
  rfl

mutual

theorem Node.run {d : Nat} {ts : List Placed} {e : Expr} : Node d ts e → ∀ nodes : List Open,
    nodes.length + d ≤ nestingLimit →
      ts.foldlM step (.building nodes false) = .ok (attach e nodes)
  | @Node.mk d t a ts es line line' ha hi, nodes, hd => by
    have hopen : step (.building nodes false) ⟨.opening, line⟩ = .ok (.building nodes true) := rfl
    have hhead : step (.building nodes true) t = .ok (.building (⟨a, []⟩ :: nodes) false) :=
      step_head ha (by omega)
    have hitems := hi.run ⟨a, []⟩ nodes (by omega)
    have hclose : step (.building (⟨a, es.reverse ++ []⟩ :: nodes) false) ⟨.closing, line'⟩ =
        .ok (attach (Expr.node a es) nodes) := by
      show closeNode line' _ = _
      rw [closeNode_cons, Open.close, List.append_nil, List.reverse_reverse]
    rw [foldlM_cons_ok hopen, foldlM_cons_ok hhead, foldlM_append_ok hitems,
      foldlM_cons_ok hclose]
    rfl

theorem Items.run {d : Nat} {ts : List Placed} {es : List Expr} : Items d ts es →
    ∀ (o : Open) (nodes : List Open), nodes.length + 1 + d ≤ nestingLimit →
      ts.foldlM step (.building (o :: nodes) false) =
        .ok (.building (⟨o.head, es.reverse ++ o.items⟩ :: nodes) false)
  | .nil, o, nodes, _ => rfl
  | @Items.atom _ t a ts es ha hi, o, nodes, hd => by
    have hatom : step (.building (o :: nodes) false) t =
        .ok (.building (o.push (Expr.leaf a) :: nodes) false) := step_atom ha _ _
    rw [foldlM_cons_ok hatom, hi.run _ nodes hd, List.reverse_cons, List.append_assoc]
    rfl
  | @Items.node _ ns ts e es hn hi, o, nodes, hd => by
    have hnode := hn.run (o :: nodes) hd
    rw [foldlM_append_ok hnode, attach, hi.run _ nodes hd, List.reverse_cons, List.append_assoc]
    rfl

end

/-! ## The grammar derives what the machine accepts -/

/-- the tokens read so far, when the given nodes are open and so many more may be opened inside -/
inductive Opened : Nat → List Open → List Placed → Prop where
  | nil : Opened nestingLimit [] []
  | cons {d : Nat} {nodes : List Open} {before ts : List Placed} {t : Placed} {a : Atom}
      {es : List Expr} (line : Nat) (ho : Opened (d + 1) nodes before) (ha : Reads t.token a)
      (hi : Items d ts es) :
      Opened d (⟨a, es.reverse⟩ :: nodes) (before ++ ⟨.opening, line⟩ :: t :: ts)

theorem Opened.length_add {d : Nat} {nodes : List Open} {ts : List Placed}
    (h : Opened d nodes ts) : nodes.length + d = nestingLimit := by
  induction h with
  | nil => exact Nat.zero_add _
  | cons _ _ _ _ ih =>
    rw [List.length_cons]
    omega

/-- more items of the innermost open node -/
theorem Opened.push {d : Nat} {o : Open} {nodes : List Open} {before ts : List Placed} {e : Expr}
    (h : Opened d (o :: nodes) before) (hi : Items d ts [e]) :
    Opened d (o.push e :: nodes) (before ++ ts) := by
  cases h with
  | @cons _ _ before us t a es line ho ha hes =>
    have hall := Opened.cons line ho ha (hes.append hi)
    rw [List.reverse_append] at hall
    rw [List.append_assoc]
    exact hall

/-- the tokens that lead the machine to a state -/
inductive Reached : List Placed → State → Prop where
  | inside {d : Nat} {nodes : List Open} {ts : List Placed} (h : Opened d nodes ts) :
      Reached ts (.building nodes false)
  | atHead {d : Nat} {nodes : List Open} {ts : List Placed} (line : Nat) (h : Opened d nodes ts) :
      Reached (ts ++ [⟨.opening, line⟩]) (.building nodes true)
  | done {ts : List Placed} {e : Expr} (h : Node nestingLimit ts e) : Reached ts (.done e)

theorem closeNode_reached {ts : List Placed} {d : Nat} {nodes : List Open} {line : Nat} {s : State}
    (h : Opened d nodes ts) (hs : closeNode line nodes = .ok s) :
    Reached (ts ++ [⟨.closing, line⟩]) s := by
  cases h with
  | nil => cases hs
  | @cons _ nodes before us t a es opened ho ha hi =>
    have hn := Node.mk opened line ha hi
    rw [closeNode_cons, Open.close, List.reverse_reverse] at hs
    cases hs
    rw [List.append_assoc]
    -- the node is the root, or one more item of the node around it
    cases ho with
    | nil => exact .done hn
    | cons l ho' ha' hi' =>
      have hparent := (Opened.cons l ho' ha' hi').push (.node hn .nil)
      rw [List.append_nil] at hparent
      exact .inside hparent

theorem putAtom_reached {ts : List Placed} {d : Nat} {nodes : List Open} {t : Placed} {a : Atom}
    {s : State} (h : Opened d nodes ts) (ha : Reads t.token a)
    (hs : putAtom a t nodes false = .ok s) : Reached (ts ++ [t]) s := by
  cases nodes with
  | nil => cases hs
  | cons o nodes =>
    cases hs
    exact .inside (h.push (.atom ha .nil))

theorem putAtom_head_reached {ts : List Placed} {d line : Nat} {nodes : List Open} {t : Placed}
    {a : Atom} {s : State} (h : Opened d nodes ts) (ha : Reads t.token a)
    (hs : putAtom a t nodes true = .ok s) : Reached (ts ++ [⟨.opening, line⟩] ++ [t]) s := by
  have hlen := h.length_add
  change (if nestingLimit ≤ nodes.length then _ else _) = _ at hs
  by_cases hroom : nestingLimit ≤ nodes.length
  · rw [if_pos hroom] at hs
    cases hs
  · rw [if_neg hroom] at hs
    cases hs
    -- the limit is checked here and not at the parenthesis: there is room for one more
    obtain ⟨k, rfl⟩ : ∃ k, d = k + 1 := ⟨d - 1, by omega⟩
    rw [List.append_assoc]
    exact .inside (.cons line h ha .nil)

theorem step_reached {ts : List Placed} {s s' : State} {t : Placed} (h : Reached ts s)
    (hb : t.token ≠ .blank) (hs : step s t = .ok s') : Reached (ts ++ [t]) s' := by
  have atom : ∀ {a : Atom}, Reads t.token a → Reached (ts ++ [t]) s' := by
    intro a ha
    cases h with
    | inside ho => exact putAtom_reached ho ha (step_atom ha _ _ ▸ hs)
    | atHead line ho => exact putAtom_head_reached ho ha (step_atom ha _ _ ▸ hs)
    | done _ => cases hs
  obtain ⟨token, line⟩ := t
  cases token with
  | opening =>
    cases h with
    | inside ho =>
      cases hs
      exact .atHead line ho
    | atHead _ _ => cases hs
    | done _ => cases hs
  | closing =>
    cases h with
    | inside ho => exact closeNode_reached ho hs
    | atHead _ _ => cases hs
    | done _ => cases hs
  | string text => exact atom (.string text)
  | unclosed => cases h <;> cases hs
  | word w =>
    cases hw : Atom.ofWord? w with
    | some a => exact atom (.word hw)
    | none =>
      cases h with
      | inside _ => rw [step_malformed hw] at hs; cases hs
      | atHead _ _ => rw [step_malformed hw] at hs; cases hs
      | done _ => cases hs
  | blank => exact absurd rfl hb

theorem run_reached {ts us : List Placed} {s s' : State} (h : Reached ts s)
    (hb : ∀ t ∈ us, t.token ≠ .blank) (hs : us.foldlM step s = .ok s') :
    Reached (ts ++ us) s' := by
  induction us generalizing ts s with
  | nil =>
    cases hs
    rw [List.append_nil]
    exact h
  | cons t us ih =>
    rw [List.foldlM_cons] at hs
    cases ht : step s t with
    | error e => rw [ht] at hs; cases hs
    | ok s₁ =>
      rw [ht] at hs
      have h₁ := step_reached h (hb t List.mem_cons_self) ht
      have hrest := ih h₁ (fun x hx => hb x (List.mem_cons_of_mem _ hx)) hs
      rw [List.append_assoc] at hrest
      exact hrest

theorem parse_eq_ok {ts : List Placed} {e : Expr} :
    parse ts = .ok e ↔ ts.foldlM step (.building [] false) = .ok (.done e) := by
  cases ts with
  | nil => exact ⟨nofun, nofun⟩
  | cons t ts =>
    show ((t :: ts).foldlM step (.building [] false) >>= _) = _ ↔ _
    cases (t :: ts).foldlM step (.building [] false) with
    | error err => exact ⟨nofun, nofun⟩
    | ok s =>
      cases s with
      | building _ _ => exact ⟨nofun, nofun⟩
      | done root =>
        show Except.ok root = .ok e ↔ _
        rw [Except.ok.injEq, Except.ok.injEq, State.done.injEq]

theorem read_eq_parse {source : String} {ts : List Placed} (h : Token.scan source = .ok ts) :
    read source = parse ts := by
  rw [read, h]
  rfl

/-- The parser accepts exactly the nodes of the grammar with at most `nestingLimit` of them open at
once.  It gives the tree of the node, and nothing in that tree is annotated. -/
theorem parse_eq_ok_iff (ts : List Placed) (e : Expr) (hb : ∀ t ∈ ts, t.token ≠ .blank) :
    (parse ts = .ok e ↔ Node nestingLimit ts e) ∧ (parse ts = .ok e → e.Plain) := by
  have accepts : parse ts = .ok e ↔ Node nestingLimit ts e := by
    rw [parse_eq_ok]
    constructor
    · intro h
      cases run_reached (.inside .nil) hb h with
      | done hn => exact hn
    · intro hn
      exact hn.run [] (Nat.le_of_eq (Nat.zero_add _))
  exact ⟨accepts, fun h => (accepts.mp h).plain⟩

/-- `(f "s" (x))` over two lines -/
theorem parse_nested :
    parse [⟨.opening, 1⟩, ⟨.word "f", 1⟩, ⟨.string "s", 1⟩, ⟨.opening, 2⟩, ⟨.word "x", 2⟩,
      ⟨.closing, 2⟩, ⟨.closing, 2⟩] =
      .ok (Expr.node (.symbol "f") [Expr.leaf (.string "s"), Expr.node (.symbol "x") []]) := by
  have hx : Node 99 [⟨.opening, 2⟩, ⟨.word "x", 2⟩, ⟨.closing, 2⟩] (Expr.node (.symbol "x") []) :=
    .mk 2 2 (.word rfl) .nil
  have hitems : Items 99 [⟨.string "s", 1⟩, ⟨.opening, 2⟩, ⟨.word "x", 2⟩, ⟨.closing, 2⟩]
      [Expr.leaf (.string "s"), Expr.node (.symbol "x") []] := .atom (.string "s") (.node hx .nil)
  exact (parse_eq_ok_iff _ _ (by decide)).1.mpr (.mk 1 2 (.word rfl) hitems)

end Program

end ChartLisp
