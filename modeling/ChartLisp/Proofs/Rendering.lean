import ChartLisp.Proofs.Number.ReadBack
import ChartLisp.Proofs.Shape

/-!
# The written form determines a value

Data are values without procedures: nothing, numbers, complex numbers and strings, and lists of
data.  Two data with the same written form differ in their properties at most, and in the sign of
a NaN, which no text shows.

* `Expr.IsData`          data whose strings hold no quote, with any properties
* `Expr.plain`           an expression without its properties and the signs of NaN
* `Atom.text_inj`        the atom in front of a closing parenthesis can be told
* `Expr.IsData.isTold`   no written form of a datum goes on as that of another
* `Expr.render_eq_iff`   two data are written alike exactly if they are the same, properties apart

Strings are data if they hold no quote: the text between two quotes of a source has none.
-/

namespace ChartLisp

/-! ## What is compared -/

/-- the same bits, but a NaN without its sign -/
def Double.plain (x : Double) : Double := ofFloat x.float

def Atom.plain : Atom → Atom
  | .number x => .number x.plain
  | .complex z => .complex ⟨z.re.plain, z.im.plain⟩
  | h => h

mutual

/-- without properties, here and in the children -/
def Expr.plain : Expr → Expr
  | ⟨h, t, _, c, l⟩ => ⟨h.plain, Expr.plainAll t, [], c, l⟩

def Expr.plainAll : List Expr → List Expr
  | [] => []
  | e :: es => e.plain :: Expr.plainAll es

end

def unquoted (s : String) : Prop := '"' ∉ s.toList

abbrev Expr.IsData (e : Expr) : Prop := e.DatumOf unquoted

theorem Double.plain_eq_plain {x y : Double} : x.plain = y.plain ↔ x.float = y.float := by
  simp [plain, ofFloat]

/-! ## Atoms -/

/-- A text is cut in one way behind its first characters with `p`. -/
theorem run_inj {α : Type} {p : α → Bool} {x y s t : List α} {a b : α}
    (hx : ∀ c ∈ x, p c = true) (hy : ∀ c ∈ y, p c = true) (ha : p a = false) (hb : p b = false)
    (h : x ++ a :: s = y ++ b :: t) : x = y ∧ a = b ∧ s = t := by
  induction x generalizing y with
  | nil =>
    cases y with
    | nil =>
      obtain ⟨rfl, rfl⟩ := List.cons.inj h
      exact ⟨rfl, rfl, rfl⟩
    | cons c y =>
      have hc := hy c List.mem_cons_self
      rw [← (List.cons.inj h).1, ha] at hc
      cases hc
  | cons c x ih =>
    cases y with
    | nil =>
      have hc := hx c List.mem_cons_self
      rw [(List.cons.inj h).1, hb] at hc
      cases hc
    | cons d y =>
      obtain ⟨rfl, htail⟩ := List.cons.inj h
      obtain ⟨rfl, hab, hst⟩ := ih (fun d hd => hx d (List.mem_cons_of_mem c hd))
        (fun d hd => hy d (List.mem_cons_of_mem c hd)) htail
      exact ⟨rfl, hab, hst⟩

namespace Double

open Number (isTextChar text_shape text_injective)

theorem text_chars (x : Double) : ∀ c ∈ x.text.toList, isTextChar c = true := (text_shape x.float).2

/-- a number begins with a character of its own -/
theorem text_append_ne (x : Double) {c : Char} (hc : isTextChar c = false) (s t : List Char) :
    x.text.toList ++ s ≠ c :: t := by
  intro h
  obtain ⟨d, r, htext⟩ := List.exists_cons_of_ne_nil (text_shape x.float).1
  have hd : isTextChar d = true := x.text_chars d (htext ▸ List.mem_cons_self)
  rw [show x.text.toList = d :: r from htext, List.cons_append] at h
  rw [(List.cons.inj h).1, hc] at hd
  cases hd

/-- two numbers with something else behind them -/
theorem text_inj {x y : Double} {s t : List Char} {a b : Char} (ha : isTextChar a = false)
    (hb : isTextChar b = false) (h : x.text.toList ++ a :: s = y.text.toList ++ b :: t) :
    x.plain = y.plain ∧ a = b ∧ s = t := by
  obtain ⟨htext, hrest⟩ := run_inj x.text_chars y.text_chars ha hb h
  exact ⟨plain_eq_plain.mpr (text_injective (String.toList_inj.mp htext)), hrest⟩

end Double

namespace Atom

open Number (isTextChar)

variable {a b : Atom}

theorem toList_complex_append (z : Complex) (s : List Char) :
    (Atom.complex z).text.toList ++ s = z.re.text.toList ++ ',' :: (z.im.text.toList ++ s) := by
  simp [text, Complex.text]

theorem toList_string_append (u : String) (s : List Char) :
    (Atom.string u).text.toList ++ s = '"' :: (u.toList ++ '"' :: s) := by
  simp [text]

/-- the atom in front of a closing parenthesis -/
theorem text_inj (ha : a.IsDatum unquoted) (hb : b.IsDatum unquoted) {s t : List Char}
    (h : a.text.toList ++ ')' :: s = b.text.toList ++ ')' :: t) : a.plain = b.plain ∧ s = t := by
  cases ha with
  | number x =>
    cases hb with
    | number y =>
      obtain ⟨hxy, -, hst⟩ := Double.text_inj rfl rfl h
      exact ⟨congrArg Atom.number hxy, hst⟩
    | complex w =>
      rw [toList_complex_append] at h
      exact absurd (Double.text_inj rfl rfl h).2.1 (by decide)
    | string _ =>
      rw [toList_string_append] at h
      exact absurd h (x.text_append_ne rfl _ _)
  | complex z =>
    rw [toList_complex_append] at h
    cases hb with
    | number y => exact absurd (Double.text_inj rfl rfl h).2.1 (by decide)
    | complex w =>
      rw [toList_complex_append] at h
      obtain ⟨hre, -, him⟩ := Double.text_inj rfl rfl h
      obtain ⟨him, -, hst⟩ := Double.text_inj rfl rfl him
      exact ⟨by rw [plain, plain, hre, him], hst⟩
    | string _ =>
      rw [toList_string_append] at h
      exact absurd h (z.re.text_append_ne rfl _ _)
  | @string u hu =>
    rw [toList_string_append] at h
    cases hb with
    | number y => exact absurd h.symm (y.text_append_ne rfl _ _)
    | complex w =>
      rw [toList_complex_append] at h
      exact absurd h.symm (w.re.text_append_ne rfl _ _)
    | @string v hv =>
      rw [toList_string_append] at h
      have hnotQuote {w : String} (hw : '"' ∉ w.toList) : ∀ c ∈ w.toList, (c != '"') = true :=
        fun c hc => bne_iff_ne.mpr fun heq => hw (heq ▸ hc)
      obtain ⟨huv, -, hst⟩ := run_inj (hnotQuote hu) (hnotQuote hv) rfl rfl (List.cons.inj h).2
      exact ⟨by rw [String.toList_inj.mp huv], (List.cons.inj hst).2⟩

/-- no atom stands where a list ends or has its first element -/
theorem IsDatum.append_ne (ha : a.IsDatum unquoted) (s r : List Char) :
    a.text.toList ++ ')' :: s ≠ ')' :: r ∧ a.text.toList ++ ')' :: s ≠ '(' :: r ∧
      a.text.toList ++ ')' :: s ≠ 'N' :: 'O' :: r := by
  have hletters : ∀ c ∈ ['N'], isTextChar c = true := List.all_eq_true.mp rfl
  cases ha with
  | number x =>
    refine ⟨x.text_append_ne rfl _ _, x.text_append_ne rfl _ _, fun h => ?_⟩
    exact absurd (run_inj x.text_chars hletters rfl rfl h).2.1 (by decide)
  | complex z =>
    rw [toList_complex_append]
    refine ⟨z.re.text_append_ne rfl _ _, z.re.text_append_ne rfl _ _, fun h => ?_⟩
    exact absurd (run_inj z.re.text_chars hletters rfl rfl h).2.1 (by decide)
  | string _ =>
    rw [toList_string_append]
    simp

end Atom

/-! ## Written forms -/

/-- texts with a blank before each, and the closing parenthesis -/
def closing : List (List Char) → List Char
  | [] => [')']
  | w :: ws => ' ' :: (w ++ closing ws)

/-- what stands behind an opening parenthesis -/
def enclosed : List (List Char) → List Char
  | [] => [')']
  | w :: ws => w ++ closing ws

theorem closing_cons_append (w : List Char) (ws : List (List Char)) (s : List Char) :
    closing (w :: ws) ++ s = ' ' :: (w ++ (closing ws ++ s)) := by
  simp [closing]

theorem enclosed_cons_append (w : List Char) (ws : List (List Char)) (s : List Char) :
    enclosed (w :: ws) ++ s = w ++ (closing ws ++ s) := by
  simp [enclosed]

theorem enclosed_map_toList (ws : List String) :
    enclosed (ws.map String.toList) = (" ".intercalate ws).toList ++ [')'] := by
  cases ws with
  | nil => rfl
  | cons w ws =>
    induction ws generalizing w with
    | nil => simp [enclosed, closing]
    | cons v ws ih =>
      have hv := ih v
      rw [String.toList_intercalate] at hv ⊢
      rw [List.map_cons, List.map_cons, List.intercalate_cons_cons]
      simp only [List.map_cons, enclosed, closing] at hv ⊢
      rw [hv]
      simp

namespace Expr

/-- the written form as characters -/
def chars (e : Expr) : List Char := e.render.toList

theorem chars_nothing (p : List (String × Expr)) :
    chars ⟨.none, [], p, [], false⟩ = ['N', 'O', 'N', 'E'] := by
  rw [chars, render]
  rfl

theorem chars_atom {h : Atom} (hh : h.IsDatum unquoted) (p : List (String × Expr)) (s : List Char) :
    chars ⟨h, [], p, [], false⟩ ++ s = '(' :: (h.text.toList ++ ')' :: s) := by
  cases hh <;> simp [chars, render, renderAll, hidesHead, isLambda, isList, Atom.symbol?]

theorem chars_list (es : List Expr) (p : List (String × Expr)) (s : List Char) :
    chars ⟨.symbol listName, es, p, [], false⟩ ++ s = '(' :: (enclosed (es.map chars) ++ s) := by
  have henclosed := enclosed_map_toList (es.map render)
  rw [List.map_map] at henclosed
  show (render _).toList ++ s = '(' :: (enclosed (es.map (String.toList ∘ render)) ++ s)
  rw [henclosed, render, renderAll_eq_map]
  · simp [hidesHead, isList, Atom.symbol?]
  · exact nofun

theorem chars_starts {e : Expr} (he : e.IsData) (s : List Char) :
    ∃ r, e.chars ++ s = '(' :: r ∨ e.chars ++ s = 'N' :: 'O' :: r := by
  cases he with
  | nothing p => exact ⟨_, .inr (by rw [chars_nothing]; rfl)⟩
  | atom hh p => exact ⟨_, .inl (chars_atom hh p s)⟩
  | list _ p => exact ⟨_, .inl (chars_list _ p s)⟩

/-- the text of a list is not that of an atom -/
theorem enclosed_ne {es : List Expr} (hes : ∀ e ∈ es, e.IsData) {h : Atom} (hh : h.IsDatum unquoted)
    (s t : List Char) : h.text.toList ++ ')' :: s ≠ enclosed (es.map chars) ++ t := by
  cases es with
  | nil => exact (hh.append_ne s _).1
  | cons e es =>
    rw [List.map_cons, enclosed_cons_append]
    obtain ⟨r, hr | hr⟩ := chars_starts (hes e List.mem_cons_self) (closing (es.map chars) ++ t)
    · rw [hr]
      exact (hh.append_ne s _).2.1
    · rw [hr]
      exact (hh.append_ne s _).2.2

/-- `e` can be told from every other datum, whatever stands behind it -/
def IsTold (e : Expr) : Prop :=
  ∀ e' : Expr, e'.IsData → ∀ s t, e.chars ++ s = e'.chars ++ t → e.plain = e'.plain ∧ s = t

theorem closing_inj {es es' : List Expr} (hes : ∀ e ∈ es, e.IsTold) (hes' : ∀ e ∈ es', e.IsData)
    {s t : List Char} (h : closing (es.map chars) ++ s = closing (es'.map chars) ++ t) :
    plainAll es = plainAll es' ∧ s = t := by
  induction es generalizing es' with
  | nil =>
    cases es' with
    | nil => exact ⟨rfl, (List.cons.inj h).2⟩
    | cons e' es' => exact absurd (List.cons.inj h).1 (by decide)
  | cons e es ih =>
    cases es' with
    | nil => exact absurd (List.cons.inj h).1 (by decide)
    | cons e' es' =>
      rw [List.map_cons, List.map_cons, closing_cons_append, closing_cons_append] at h
      obtain ⟨he, hrest⟩ :=
        hes e List.mem_cons_self e' (hes' e' List.mem_cons_self) _ _ (List.cons.inj h).2
      obtain ⟨hall, hst⟩ := ih (fun e he => hes e (List.mem_cons_of_mem _ he))
        (fun e he => hes' e (List.mem_cons_of_mem _ he)) hrest
      exact ⟨by rw [plainAll, plainAll, he, hall], hst⟩

theorem enclosed_inj {es es' : List Expr} (hdata : ∀ e ∈ es, e.IsData) (hes : ∀ e ∈ es, e.IsTold)
    (hes' : ∀ e ∈ es', e.IsData) {s t : List Char}
    (h : enclosed (es.map chars) ++ s = enclosed (es'.map chars) ++ t) :
    plainAll es = plainAll es' ∧ s = t := by
  have hne {e : Expr} (he : e.IsData) {u v : List Char} : e.chars ++ u ≠ ')' :: v := by
    intro heq
    obtain ⟨r, hr | hr⟩ := chars_starts he u <;> rw [hr] at heq <;>
      exact absurd (List.cons.inj heq).1 (by decide)
  cases es with
  | nil =>
    cases es' with
    | nil => exact ⟨rfl, (List.cons.inj h).2⟩
    | cons e' es' =>
      rw [List.map_cons, enclosed_cons_append] at h
      exact absurd h.symm (hne (hes' e' List.mem_cons_self))
  | cons e es =>
    rw [List.map_cons, enclosed_cons_append] at h
    cases es' with
    | nil => exact absurd h (hne (hdata e List.mem_cons_self))
    | cons e' es' =>
      rw [List.map_cons, enclosed_cons_append] at h
      obtain ⟨he, hrest⟩ := hes e List.mem_cons_self e' (hes' e' List.mem_cons_self) _ _ h
      obtain ⟨hall, hst⟩ := closing_inj (fun e he => hes e (List.mem_cons_of_mem _ he))
        (fun e he => hes' e (List.mem_cons_of_mem _ he)) hrest
      exact ⟨by rw [plainAll, plainAll, he, hall], hst⟩

theorem IsData.isTold {e : Expr} (he : e.IsData) : e.IsTold := by
  induction he with
  | nothing p =>
    intro e' he' s t h
    rw [chars_nothing] at h
    cases he' with
    | nothing p' =>
      rw [chars_nothing] at h
      exact ⟨rfl, List.append_cancel_left h⟩
    | atom hb p' =>
      rw [chars_atom hb] at h
      exact absurd (List.cons.inj h).1 (by decide)
    | list _ p' =>
      rw [chars_list] at h
      exact absurd (List.cons.inj h).1 (by decide)
  | atom ha p =>
    intro e' he' s t h
    rw [chars_atom ha] at h
    cases he' with
    | nothing p' =>
      rw [chars_nothing] at h
      exact absurd (List.cons.inj h).1 (by decide)
    | atom hb p' =>
      rw [chars_atom hb] at h
      obtain ⟨hab, hst⟩ := Atom.text_inj ha hb (List.cons.inj h).2
      exact ⟨by rw [plain, plain, hab], hst⟩
    | list hes' p' =>
      rw [chars_list] at h
      exact absurd (List.cons.inj h).2 (enclosed_ne hes' ha s t)
  | list hes p ih =>
    intro e' he' s t h
    rw [chars_list] at h
    cases he' with
    | nothing p' =>
      rw [chars_nothing] at h
      exact absurd (List.cons.inj h).1 (by decide)
    | atom hb p' =>
      rw [chars_atom hb] at h
      exact absurd (List.cons.inj h).2.symm (enclosed_ne hes hb t s)
    | list hes' p' =>
      rw [chars_list] at h
      obtain ⟨hall, hst⟩ := enclosed_inj hes ih hes' (List.cons.inj h).2
      exact ⟨by rw [plain, plain, hall], hst⟩

/-! ## What does not show -/

mutual

theorem render_plain : ∀ e : Expr, e.plain.render = e.render
  | ⟨h, t, p, c, l⟩ => by
    rw [plain]
    cases h <;>
      simp [render, Atom.plain, renderAll_plainAll t, hidesHead, isLambda, isList, Atom.symbol?,
        Atom.text, Complex.text, Double.text, Double.plain, Double.ofFloat]

theorem renderAll_plainAll : ∀ es : List Expr, renderAll (plainAll es) = renderAll es
  | [] => rfl
  | e :: es => by rw [plainAll, renderAll, renderAll, render_plain e, renderAll_plainAll es]

end

theorem render_eq_iff {a b : Expr} (ha : a.IsData) (hb : b.IsData) :
    a.render = b.render ↔ a.plain = b.plain := by
  constructor
  · intro h
    have hchars : a.chars ++ [] = b.chars ++ [] := by rw [chars, chars, h]
    exact (ha.isTold b hb [] [] hchars).1
  · intro h
    rw [← render_plain a, h, render_plain b]

/-- a list of nothing is not written like a NaN, and a property does not show -/
theorem render_list_nothing :
    (list [nothing]).IsData ∧ (number (.nan true)).IsData ∧
      ((list [nothing]).setProperty "size" (number 1)).IsData ∧
      (list [nothing]).render ≠ (number (.nan true)).render ∧
      (list [nothing]).render = ((list [nothing]).setProperty "size" (number 1)).render := by
  have hes : ∀ e ∈ [nothing], e.IsData := by
    intro e he
    rw [List.mem_singleton.mp he]
    exact .nothing []
  have hlist : (list [nothing]).IsData := .list hes []
  have hnan : (number (.nan true)).IsData := .atom (.number _) []
  have hsize : ((list [nothing]).setProperty "size" (number 1)).IsData := .list hes _
  refine ⟨hlist, hnan, hsize, fun h => ?_, (render_eq_iff hlist hsize).mpr ?_⟩
  · have hplain := (render_eq_iff hlist hnan).mp h
    rw [list, number, leaf, node, node, plain, plain] at hplain
    exact absurd (congrArg head hplain) nofun
  · rw [list, setProperty, node, plain, plain]

end Expr

end ChartLisp
