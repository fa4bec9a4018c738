import ChartLisp.Proofs.Grammar
import ChartLisp.Proofs.Layout
import ChartLisp.Proofs.Rendering
import ChartLisp.Proofs.Shape

/-!
# What is written is read back

The written form of an expression is a program, if its heads can be spelled in a source and all of
them show, and reading it gives the expression back, annotations apart.

* `Atom.Spelled`      atoms that a token of a source stands for
* `Expr.Readable`     expressions with such heads only, none of which the written form leaves out
* `Expr.skeleton`     an expression without annotations
* `Expr.tokens`       the tokens of the written form
* `Readable.isLaid`   the scanner finds them in it
* `Readable.node`     by the grammar they are a node, with the skeleton as its tree
* `read_render`       reading undoes writing
-/

namespace ChartLisp

open ChartLisp.Token (Laid Layout isWordChar)

/-! ## Atoms -/

/-- finite numbers, strings without a quote, and symbols that are no number and hold only
characters of words -/
inductive Atom.Spelled : Atom → Prop where
  | number {x : Double} (h : x.isFinite = true) : Spelled (.number x)
  | string {s : String} (h : '"' ∉ s.toList) : Spelled (.string s)
  | symbol {s : String} (hs : ∀ c ∈ s.toList, isWordChar c = true)
      (h : Atom.ofWord? s = some (.symbol s)) : Spelled (.symbol s)

/-- the token an atom is written as -/
def Atom.token : Atom → Token
  | .string s => .string s
  | a => .word a.text

theorem Atom.token_text (a : Atom) : a.token.text = a.text := by
  cases a <;> rfl

/-- a number has no sign beside that of its `Float` -/
theorem Double.ofFloat_float {x : Double} (h : x.isFinite = true) : ofFloat x.float = x := by
  obtain ⟨f, negative, hnan⟩ := x
  cases negative with
  | false => rfl
  | true =>
    have hfalse : f.isNaN = false := Number.isNaN_eq_false h
    rw [hnan rfl] at hfalse
    cases hfalse

theorem Number.isWordChar_of_isTextChar {c : Char} (h : isTextChar c = true) :
    isWordChar c = true := by
  by_contra hc
  rcases Token.isWordChar_eq_false.mp (Bool.eq_false_of_not_eq_true hc) with
    hblank | rfl | rfl | rfl | rfl
  · rcases Token.isBlank_eq_true.mp hblank with rfl | rfl | rfl | rfl | rfl | rfl <;> cases h
  all_goals cases h

namespace Atom.Spelled

variable {a : Atom}

theorem reads (h : a.Spelled) : Program.Reads a.token a := by
  cases h with
  | @number x hx =>
    obtain ⟨l, hl, hvalue⟩ := Number.read?_text hx
    refine .word ?_
    show Atom.ofWord? (Number.text x.float) = _
    unfold Atom.ofWord?
    rw [hl]
    show some (Atom.number (Double.ofFloat l.value)) = _
    rw [hvalue, Double.ofFloat_float hx]
  | string _ => exact .string _
  | symbol _ hw => exact .word hw

theorem proper (h : a.Spelled) : a.token.Proper := by
  cases h with
  | @number x _ =>
    obtain ⟨hne, hall⟩ := Number.text_shape x.float
    exact ⟨hne, fun c hc => Number.isWordChar_of_isTextChar (hall c hc)⟩
  | string hs => exact hs
  | @symbol s hs hw =>
    refine ⟨fun hnil => ?_, hs⟩
    obtain rfl : s = "" := String.toList_inj.mp hnil
    cases hw

end Atom.Spelled

/-! ## Expressions -/

namespace Expr

/-- every head can be spelled and shows: none is `lambda`, and `list` heads only nodes that are
marked as the body of a procedure -/
inductive Readable : Expr → Prop where
  | intro {e : Expr} (ha : e.head.Spelled) (hlambda : e.head ≠ .symbol lambdaName)
      (hlist : e.head = .symbol listName → e.isBody = true) (ht : ∀ c ∈ e.tail, Readable c) :
      Readable e

mutual

/-- without properties, captured bindings and the marks of bodies, at every level -/
def skeleton : Expr → Expr
  | ⟨h, t, _, _, _⟩ => node h (skeletonAll t)

def skeletonAll : List Expr → List Expr
  | [] => []
  | e :: es => skeleton e :: skeletonAll es

end

theorem skeletonAll_eq_map (es : List Expr) : skeletonAll es = es.map skeleton := by
  induction es with
  | nil => rfl
  | cons e es ih => rw [skeletonAll, ih, List.map_cons]

theorem skeleton_eq (e : Expr) : e.skeleton = node e.head (e.tail.map skeleton) := by
  cases e
  rw [skeleton, skeletonAll_eq_map]

mutual

/-- the tokens of the written form -/
def tokens : Expr → List Token
  | ⟨h, t, _, _, _⟩ => .opening :: h.token :: (tokensAll t ++ [.closing])

def tokensAll : List Expr → List Token
  | [] => []
  | e :: es => tokens e ++ tokensAll es

end

theorem tokens_eq (e : Expr) :
    e.tokens = .opening :: e.head.token :: (tokensAll e.tail ++ [.closing]) := by
  cases e
  rw [tokens]

/-! ## The written form -/

theorem hidesHead_eq_false {e : Expr} (hlambda : e.head ≠ .symbol lambdaName)
    (hlist : e.head = .symbol listName → e.isBody = true) : e.hidesHead = false := by
  unfold hidesHead isLambda isList
  rw [beq_eq_false_iff_ne.mpr fun h => hlambda (Atom.eq_symbol h), Bool.false_or]
  by_cases hl : e.head.symbol? = some listName
  · rw [hlist (Atom.eq_symbol hl), Bool.not_true, Bool.and_false]
  · rw [beq_eq_false_iff_ne.mpr hl, Bool.false_and]

theorem chars_eq {e : Expr} (ha : e.head.Spelled) (hs : e.hidesHead = false) :
    e.chars = '(' :: (e.head.text.toList ++ closing (e.tail.map chars)) := by
  have henclosed := enclosed_map_toList (e.head.text :: e.tail.map render)
  rw [List.map_cons, List.map_map] at henclosed
  have hrender : e.render = "(" ++ " ".intercalate (e.head.text :: e.tail.map render) ++ ")" := by
    obtain ⟨h, t, p, c, l⟩ := e
    rw [render, hs, renderAll_eq_map]
    · rfl
    · rintro rfl
      cases ha
  show e.render.toList = '(' :: enclosed (e.head.text.toList :: e.tail.map (String.toList ∘ render))
  rw [henclosed, hrender]
  simp

/-- the tokens of `e` stand in its written form, wherever that stands -/
def IsLaid (e : Expr) : Prop :=
  ∀ (ts : List Token) (cs : List Char), Laid false ts cs → ∀ (glued : Bool) (w : List Char),
    Layout w → Laid glued (e.tokens ++ ts) (w ++ (e.chars ++ cs))

/-- every child has a blank before it, so a word may stand right before them -/
theorem laid_closing {es : List Expr} (hes : ∀ e ∈ es, e.IsLaid) {ts : List Token} {cs : List Char}
    (h : Laid false ts cs) (glued : Bool) :
    Laid glued (tokensAll es ++ .closing :: ts) (closing (es.map chars) ++ cs) := by
  induction es generalizing glued with
  | nil => exact .token .nil trivial nofun h
  | cons e es ih =>
    obtain ⟨he, hes⟩ := List.forall_mem_cons.mp hes
    rw [List.map_cons, closing_cons_append, tokensAll, List.append_assoc]
    exact he _ _ (ih hes false) glued [' '] (.blank rfl .nil)

theorem Readable.isLaid {e : Expr} (h : e.Readable) : e.IsLaid := by
  induction h with
  | @intro e ha hlambda hlist _ ih =>
    intro ts cs hcs glued w hw
    have hhead := Laid.token_first ha.proper (laid_closing ih hcs e.head.token.isWord)
    rw [Atom.token_text] at hhead
    have hopening : Laid glued (.opening :: e.head.token :: (tokensAll e.tail ++ .closing :: ts))
        (w ++ '(' :: (e.head.text.toList ++ (closing (e.tail.map chars) ++ cs))) :=
      .token hw trivial nofun hhead
    rw [chars_eq ha (hidesHead_eq_false hlambda hlist), tokens_eq]
    simpa using hopening

theorem Readable.scan_tokens {e : Expr} (h : e.Readable) :
    ∃ ts, Token.scan e.render = .ok ts ∧ ts.map Placed.token = e.tokens := by
  have hlaid := h.isLaid [] [] (.done (.closed .nil)) false [] .nil
  rw [List.append_nil, List.append_nil, List.nil_append] at hlaid
  exact hlaid.scan_eq

/-! ## The tree -/

theorem items_skeleton {d : Nat} {es : List Expr}
    (hes : ∀ e ∈ es, ∀ ts : List Placed, ts.map Placed.token = e.tokens →
      Program.Node d ts e.skeleton) {ts : List Placed}
    (hts : ts.map Placed.token = tokensAll es) : Program.Items d ts (es.map skeleton) := by
  induction es generalizing ts with
  | nil =>
    obtain rfl : ts = [] := List.map_eq_nil_iff.mp hts
    exact .nil
  | cons e es ih =>
    obtain ⟨he, hes⟩ := List.forall_mem_cons.mp hes
    obtain ⟨ns, us, rfl, hns, hus⟩ := List.map_eq_append_iff.mp hts
    exact .node (he ns hns) (ih hes hus)

theorem Readable.node {e : Expr} (h : e.Readable) {d : Nat} (hd : e.height ≤ d) {ts : List Placed}
    (hts : ts.map Placed.token = e.tokens) : Program.Node d ts e.skeleton := by
  induction h generalizing d ts with
  | @intro e ha _ _ _ ih =>
    cases d with
    | zero => exact absurd e.height_pos (by omega)
    | succ d =>
      -- `ts` is taken apart as the tokens are; the lines of its tokens do not matter
      rw [tokens_eq] at hts
      obtain ⟨t, ts, rfl, ht, hts⟩ := List.map_eq_cons_iff.mp hts
      obtain ⟨u, ts, rfl, hu, hts⟩ := List.map_eq_cons_iff.mp hts
      obtain ⟨us, vs, rfl, hus, hvs⟩ := List.map_eq_append_iff.mp hts
      obtain ⟨v, vs, rfl, hv, hvs⟩ := List.map_eq_cons_iff.mp hvs
      obtain rfl : vs = [] := List.map_eq_nil_iff.mp hvs
      obtain ⟨_, line⟩ := t
      obtain ⟨_, line'⟩ := v
      obtain rfl : _ = Token.opening := ht
      obtain rfl : _ = Token.closing := hv
      have hitems : Program.Items d us (e.tail.map skeleton) := by
        refine items_skeleton (fun c hc us hus => ih c hc ?_ hus) hus
        exact height_le_succ.mp hd c hc
      rw [skeleton_eq]
      exact .mk line line' (hu ▸ ha.reads) hitems

end Expr

/-- Reading the written form of an expression that nests no deeper than programs may gives the
expression back, without its annotations. -/
theorem read_render {e : Expr} (he : e.Readable) (hh : e.height ≤ nestingLimit) :
    Program.read e.render = .ok e.skeleton := by
  obtain ⟨ts, hscan, htokens⟩ := he.scan_tokens
  have hnode := he.node hh htokens
  rw [Program.read_eq_parse hscan]
  exact Program.parse_eq_ok.mpr (hnode.run [] (Nat.le_of_eq (Nat.zero_add _)))

/-- a list that is the body of a procedure, of an annotated number and a string that looks like
more tokens -/
def markedBody : Expr :=
  { Expr.list [(Expr.number 2.5).setProperty "unit" (Expr.string "m"),
      Expr.node (.symbol "f") [Expr.string "a (b ; c"]] with
    captured := [("x", Expr.number 1)]
    isBody := true }

theorem read_markedBody :
    markedBody.Readable ∧ markedBody.height ≤ nestingLimit ∧
      Program.read markedBody.render = .ok (Expr.list
        [Expr.number 2.5, Expr.node (.symbol "f") [Expr.string "a (b ; c"]]) := by
  have hlist : (Atom.symbol Expr.listName).Spelled := .symbol (List.all_eq_true.mp rfl) rfl
  have hf : (Atom.symbol "f").Spelled := .symbol (List.all_eq_true.mp rfl) rfl
  have hnumber : ((Expr.number 2.5).setProperty "unit" (Expr.string "m")).Readable :=
    .intro (.number (by decide)) nofun nofun (List.forall_mem_nil _)
  have hstring : (Expr.string "a (b ; c").Readable :=
    .intro (.string (by decide)) nofun nofun (List.forall_mem_nil _)
  have hcall : (Expr.node (.symbol "f") [Expr.string "a (b ; c"]).Readable :=
    .intro hf (by decide) (by decide) (List.forall_mem_singleton.mpr hstring)
  have hbody : markedBody.Readable :=
    .intro hlist (by decide) (fun _ => rfl)
      (List.forall_mem_cons.mpr ⟨hnumber, List.forall_mem_singleton.mpr hcall⟩)
  have hheight : markedBody.height ≤ nestingLimit := by decide
  exact ⟨hbody, hheight, read_render hbody hheight⟩

end ChartLisp
