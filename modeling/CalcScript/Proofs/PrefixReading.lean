/-
`Proofs/PrefixReading.lean` -- the prefix form can be read back.

The prefix form of a tree is a text made of words, quoted texts and groups in parentheses, with
spaces between (`Form`). Two steps lead from the text back to the tree. The text determines the
form, since every part of it shows where it ends. The form determines the tree up to its
places: the first word of a group names the node, and a word alone is a literal or a variable
(`Form.expr`).

Infinity is the one number whose text is the name of a variable, so it is left out.
-/
import CalcScript.Expr.PrefixForm
import CalcScript.Proofs.NumberTexts
import CalcScript.Proofs.Operators
import CalcScript.Proofs.QuotedTexts

set_option autoImplicit false

namespace CalcScript

/-! ## 1. Forms -/

/-- A text with parentheses, seen as a tree. -/
inductive Form where
  | word (chars : List Char)
  | quoted (s : String)
  | group (items : List Form)

namespace Form

/-- A text as one word. -/
def ofName (name : String) : Form := .word name.toList

mutual

/-- The characters of a form. -/
def chars : Form → List Char
  | .word cs => cs
  | .quoted s => (Text.quoted s).toList
  | .group items => '(' :: joined items

/-- The forms of a group with a space between them, and what closes the group. -/
def joined : List Form → List Char
  | [] => [')']
  | f :: fs => f.chars ++ behind fs

/-- The forms of a group behind the first one. -/
def behind : List Form → List Char
  | [] => [')']
  | f :: fs => ' ' :: (f.chars ++ behind fs)

end

/-- The characters that no word contains. -/
def Ends (c : Char) : Prop := c = ' ' ∨ c = ')'

instance : DecidablePred Ends := fun c => inferInstanceAs (Decidable (c = ' ' ∨ c = ')'))

/-- Words show where they end, and that they are words. -/
inductive Legible : Form → Prop
  | word {c cs} (hparen : c ≠ '(') (hquote : c ≠ '"') (h : ∀ d ∈ c :: cs, ¬ Ends d) :
    Legible (.word (c :: cs))
  | quoted {s} : Legible (.quoted s)
  | group {items} (h : ∀ f ∈ items, Legible f) : Legible (.group items)

/-- Nothing follows that could belong to a word. -/
def Stops (rest : List Char) : Prop := ∀ c ∈ rest.head?, Ends c

theorem stops_nil : Stops [] := by
  rintro c ⟨⟩

theorem stops_behind (fs : List Form) (rest : List Char) : Stops (behind fs ++ rest) := by
  cases fs with
  | nil =>
    rintro c ⟨⟩
    exact .inr rfl
  | cons f fs =>
    rintro c ⟨⟩
    exact .inl rfl

/-- Words with something behind them that ends them. -/
theorem word_unique {cs ds r s : List Char} (hcs : ∀ c ∈ cs, ¬ Ends c) (hds : ∀ d ∈ ds, ¬ Ends d)
    (hr : Stops r) (hs : Stops s) (h : cs ++ r = ds ++ s) : cs = ds ∧ r = s := by
  induction cs generalizing ds with
  | nil =>
    cases ds with
    | nil => exact ⟨rfl, h⟩
    | cons d ds =>
      rw [List.nil_append] at h
      exact absurd (hr d (by rw [h]; rfl)) (hds d List.mem_cons_self)
  | cons c cs ih =>
    cases ds with
    | nil =>
      rw [List.nil_append] at h
      exact absurd (hs c (by rw [← h]; rfl)) (hcs c List.mem_cons_self)
    | cons d ds =>
      obtain ⟨rfl, htail⟩ := List.cons.inj h
      obtain ⟨rfl, rfl⟩ := ih (List.forall_mem_cons.mp hcs).2 (List.forall_mem_cons.mp hds).2 htail
      exact ⟨rfl, rfl⟩

/-- A form begins with neither a space nor a closing parenthesis. -/
theorem Legible.head {f : Form} (h : f.Legible) : ∃ c cs, f.chars = c :: cs ∧ ¬ Ends c := by
  cases h with
  | @word c cs hparen hquote h => exact ⟨c, cs, rfl, h c List.mem_cons_self⟩
  | @quoted s => exact ⟨'"', _, Text.toList_quoted s, by decide⟩
  | @group items h => exact ⟨'(', _, rfl, by decide⟩

mutual

/-- **A text is the text of one form at most**, whatever ends it. -/
theorem chars_unique : ∀ (f g : Form) {r s : List Char}, f.Legible → g.Legible → Stops r →
    Stops s → f.chars ++ r = g.chars ++ s → f = g ∧ r = s
  | .word cs => by
    intro g r s hf hg hr hs h
    cases hf with
    | word hparen hquote hchars =>
      cases hg with
      | word hparen' hquote' hchars' =>
        obtain ⟨hword, rfl⟩ := word_unique hchars hchars' hr hs h
        exact ⟨congrArg Form.word hword, rfl⟩
      | @quoted a =>
        rw [chars, chars, Text.toList_quoted] at h
        exact absurd (List.cons.inj h).1 hquote
      | group _ => exact absurd (List.cons.inj h).1 hparen
  | .quoted a => by
    intro g r s hf hg hr hs h
    cases hg with
    | word hparen hquote hchars =>
      rw [chars, chars, Text.toList_quoted] at h
      exact absurd (List.cons.inj h).1.symm hquote
    | @quoted b =>
      obtain ⟨rfl, rfl⟩ := Text.quoted_unique h
      exact ⟨rfl, rfl⟩
    | group _ =>
      rw [chars, chars, Text.toList_quoted] at h
      exact absurd (List.cons.inj h).1 (by decide)
  | .group items => by
    intro g r s hf hg hr hs h
    cases hf with
    | group hitems =>
      cases hg with
      | word hparen hquote hchars => exact absurd (List.cons.inj h).1.symm hparen
      | @quoted a =>
        rw [chars, chars, Text.toList_quoted] at h
        exact absurd (List.cons.inj h).1 (by decide)
      | @group items' hitems' =>
        obtain ⟨rfl, rfl⟩ := joined_unique items items' hitems hitems' (List.cons.inj h).2
        exact ⟨rfl, rfl⟩

theorem joined_unique : ∀ (fs gs : List Form) {r s : List Char}, (∀ f ∈ fs, f.Legible) →
    (∀ g ∈ gs, g.Legible) → joined fs ++ r = joined gs ++ s → fs = gs ∧ r = s
  | [] => by
    intro gs r s hfs hgs h
    cases gs with
    | nil => exact ⟨rfl, (List.cons.inj h).2⟩
    | cons g gs =>
      obtain ⟨c, cs, hchars, hc⟩ := (List.forall_mem_cons.mp hgs).1.head
      rw [joined, joined, hchars] at h
      exact absurd (.inr (List.cons.inj h).1.symm) hc
  | f :: fs => by
    intro gs r s hfs hgs h
    obtain ⟨hf, htail⟩ := List.forall_mem_cons.mp hfs
    cases gs with
    | nil =>
      obtain ⟨c, cs, hchars, hc⟩ := hf.head
      rw [joined, joined, hchars] at h
      exact absurd (.inr (List.cons.inj h).1) hc
    | cons g gs =>
      obtain ⟨hg, htail'⟩ := List.forall_mem_cons.mp hgs
      rw [joined, joined, List.append_assoc, List.append_assoc] at h
      obtain ⟨rfl, hbehind⟩ := chars_unique f g hf hg (stops_behind fs r) (stops_behind gs s) h
      obtain ⟨rfl, rfl⟩ := behind_unique fs gs htail htail' hbehind
      exact ⟨rfl, rfl⟩

theorem behind_unique : ∀ (fs gs : List Form) {r s : List Char}, (∀ f ∈ fs, f.Legible) →
    (∀ g ∈ gs, g.Legible) → behind fs ++ r = behind gs ++ s → fs = gs ∧ r = s
  | [] => by
    intro gs r s hfs hgs h
    cases gs with
    | nil => exact ⟨rfl, (List.cons.inj h).2⟩
    | cons g gs => exact absurd (List.cons.inj h).1 (by decide)
  | f :: fs => by
    intro gs r s hfs hgs h
    obtain ⟨hf, htail⟩ := List.forall_mem_cons.mp hfs
    cases gs with
    | nil => exact absurd (List.cons.inj h).1 (by decide)
    | cons g gs =>
      obtain ⟨hg, htail'⟩ := List.forall_mem_cons.mp hgs
      rw [behind, behind, List.cons_append, List.cons_append, List.append_assoc,
        List.append_assoc] at h
      obtain ⟨rfl, hbehind⟩ := chars_unique f g hf hg (stops_behind fs r) (stops_behind gs s)
        (List.cons.inj h).2
      obtain ⟨rfl, rfl⟩ := behind_unique fs gs htail htail' hbehind
      exact ⟨rfl, rfl⟩

end

end Form

/-! ## 2. Prefix forms -/

namespace Expr

/-- A group with a name in front. -/
def headed (head : String) (operands : List Form) : Form := .group (.ofName head :: operands)

mutual

/-- The prefix form of a tree, with its parts apart. -/
def form : Expr → Form
  | .literal (.str s) => .quoted s
  | .literal l => .ofName l.text
  | .primitive p => .ofName p.name
  | .array items => headed "array" (forms items)
  | .var name _ => .ofName name
  | .store name value => headed ":=" [.ofName name, form value]
  | .update name value _ => headed "<-" [.ofName name, form value]
  | .seq first rest => headed "seq" [form first, form rest]
  | .and left right => headed "&&" [form left, form right]
  | .or left right => headed "||" [form left, form right]
  | .cond condition consequent alternate =>
    headed "if" [form condition, form consequent, form alternate]
  | .loop condition body => headed "while" [form condition, form body]
  | .func params body => headed "fun" [.group (params.map .ofName), form body]
  | .apply (.primitive p) args _ => headed p.name (forms args)
  | .apply callee args _ => headed "call" (form callee :: forms args)
  | .block label body =>
    headed "block" (label.toList.map .ofName ++ [form body])

def forms : List Expr → List Form
  | [] => []
  | e :: es => form e :: forms es

end

end Expr

namespace Form

/-- The text of a form. -/
def text (f : Form) : String := String.ofList f.chars

@[simp]
theorem text_ofName (name : String) : (ofName name).text = name := String.ofList_toList

theorem map_text_ofName (names : List String) : (names.map ofName).map text = names := by
  rw [List.map_map]
  exact List.map_id'' text_ofName names

theorem toList_intercalate : ∀ fs : List Form,
    (" ".intercalate (fs.map text) ++ ")").toList = joined fs
  | [] => rfl
  | [f] => by simp [text, joined, behind]
  | f :: g :: fs => by
    have ih := toList_intercalate (g :: fs)
    rw [String.toList_append] at ih
    rw [List.map_cons, List.map_cons, String.intercalate_cons_cons, ← List.map_cons,
      String.toList_append, String.toList_append, String.toList_append, List.append_assoc, ih]
    simp [text, joined, behind]

/-- The text of a group. -/
theorem text_group (fs : List Form) :
    (Form.group fs).text = "(" ++ " ".intercalate (fs.map text) ++ ")" := by
  apply String.toList_inj.mp
  rw [String.append_assoc, String.toList_append, toList_intercalate, text, String.toList_ofList]
  rfl

end Form

namespace Expr

theorem text_headed (head : String) (fs : List Form) :
    (headed head fs).text = node head (fs.map Form.text) := by
  rw [headed, Form.text_group, List.map_cons, node]
  exact congrArg (fun h => "(" ++ " ".intercalate (h :: _) ++ ")") (Form.text_ofName head)

variable {callee : Expr} {args : List Expr} {pos : Position}

theorem form_call (h : ∀ p, callee ≠ .primitive p) :
    form (.apply callee args pos) = headed "call" (form callee :: forms args) := by
  rw [form]
  exact h

theorem prefixForm_call (h : ∀ p, callee ≠ .primitive p) :
    prefixForm (.apply callee args pos) = node "call" (prefixForm callee :: prefixForms args) := by
  rw [prefixForm]
  exact h

mutual

/-- The prefix form of a tree is the text of its form. -/
theorem text_form : ∀ e : Expr, e.form.text = e.prefixForm
  | .literal (.str s) => String.ofList_toList
  | .literal (.number x) => Form.text_ofName _
  | .literal (.bool _) => Form.text_ofName _
  | .literal .null => Form.text_ofName _
  | .primitive _ => Form.text_ofName _
  | .var _ _ => Form.text_ofName _
  | .array items => by rw [form, prefixForm, text_headed, text_forms items]
  | .store name value => by
    rw [form, prefixForm, text_headed, List.map_cons, Form.text_ofName, List.map_singleton,
      text_form value]
  | .update name value _ => by
    rw [form, prefixForm, text_headed, List.map_cons, Form.text_ofName, List.map_singleton,
      text_form value]
  | .seq first rest => by
    rw [form, prefixForm, text_headed, List.map_cons, List.map_singleton, text_form first,
      text_form rest]
  | .and left right => by
    rw [form, prefixForm, text_headed, List.map_cons, List.map_singleton, text_form left,
      text_form right]
  | .or left right => by
    rw [form, prefixForm, text_headed, List.map_cons, List.map_singleton, text_form left,
      text_form right]
  | .cond condition consequent alternate => by
    rw [form, prefixForm, text_headed, List.map_cons, List.map_cons, List.map_singleton,
      text_form condition, text_form consequent, text_form alternate]
  | .loop condition body => by
    rw [form, prefixForm, text_headed, List.map_cons, List.map_singleton, text_form condition,
      text_form body]
  | .func params body => by
    rw [form, prefixForm, text_headed, List.map_cons, List.map_singleton, text_form body,
      Form.text_group, Form.map_text_ofName]
  | .apply callee args _ => by
    have hcallee := text_form callee
    have hargs := text_forms args
    by_cases hprimitive : ∃ p, callee = .primitive p
    · obtain ⟨p, rfl⟩ := hprimitive
      rw [form, prefixForm, text_headed, hargs]
    · have hp : ∀ p, callee ≠ .primitive p := fun p hp => hprimitive ⟨p, hp⟩
      rw [form_call hp, prefixForm_call hp, text_headed, List.map_cons, hcallee, hargs]
  | .block label body => by
    rw [form, prefixForm, text_headed, List.map_append, Form.map_text_ofName,
      List.map_singleton, text_form body]

theorem text_forms : ∀ es : List Expr, (forms es).map Form.text = prefixForms es
  | [] => rfl
  | e :: es => by rw [forms, prefixForms, List.map_cons, text_form e, text_forms es]

end

end Expr

/-! ## 3. Reading back -/

/-- The literal or the variable that a word is. A number begins with a digit. -/
def readWord (word : String) : Expr :=
  if word = "true" then .literal (.bool true)
  else if word = "false" then .literal (.bool false)
  else if word = "null" then .null
  else if word.toList.head?.any Char.isDigit then
    (number? word).elim .null fun x => .literal (.number x)
  else .var word .start

/-- The node with the given first word, its operands as they are written and as trees. -/
def assemble (head : String) (operands : List Form) (parts : List Expr) : Expr :=
  match head, operands, parts with
  | "array", _, items => .array items
  | ":=", name :: _, [_, value] => .store name.text value
  | "<-", name :: _, [_, value] => .update name.text value .start
  | "seq", _, [first, rest] => .seq first rest
  | "&&", _, [left, right] => .and left right
  | "||", _, [left, right] => .or left right
  | "if", _, [condition, consequent, alternate] => .cond condition consequent alternate
  | "while", _, [condition, body] => .loop condition body
  | "fun", .group params :: _, [_, body] => .func (params.map Form.text) body
  | "call", _, callee :: args => .apply callee args .start
  | "block", _, [body] => .block none body
  | "block", label :: _, [_, body] => .block (some label.text) body
  | head, _, args =>
    (Primitive.ofName? head).elim .null fun p => .apply (.primitive p) args .start

namespace Form

mutual

/-- The tree that a form is the prefix form of, if it is one, without places. -/
def expr : Form → Expr
  | .word cs => readWord (String.ofList cs)
  | .quoted s => .literal (.str s)
  | .group [] => .null
  | .group (head :: operands) => assemble head.text operands (exprs operands)

def exprs : List Form → List Expr
  | [] => []
  | f :: fs => f.expr :: exprs fs

end

theorem expr_ofName (name : String) : (ofName name).expr = readWord name := by
  rw [ofName, expr, String.ofList_toList]

end Form

namespace Expr

open Lexical

/-- No number in the tree is infinite. -/
def Finite (e : Expr) : Prop := ∀ x, e.Contains (.literal (.number x)) → x.isInf = false

theorem Finite.child {e part : Expr} (h : e.Finite) (hpart : part ∈ e.children) : part.Finite :=
  fun x hx => h x (.head hpart hx)

theorem Finite.of_children {e : Expr}
    (hnumber : ∀ x, e = .literal (.number x) → x.isInf = false)
    (h : ∀ part ∈ e.children, part.Finite) : e.Finite := by
  intro x hx
  rcases Relation.ReflTransGen.cases_head hx with heq | ⟨part, hpart, hx⟩
  · exact hnumber x heq
  · exact h part hpart x hx

theorem expr_headed (head : String) (fs : List Form) :
    (headed head fs).expr = assemble head fs (Form.exprs fs) := by
  rw [headed, Form.expr, Form.text_ofName]

/-- Operators are found under their names again. -/
theorem assemble_operator (p : Primitive) (operands : List Form) (args : List Expr) :
    assemble p.name operands args = .apply (.primitive p) args .start := by
  cases p <;> rfl

/-- What an identifier begins with. -/
theorem exists_of_isName {name : String} (h : IsName name) :
    ∃ c cs, name.toList = c :: cs ∧ (c.isAlpha ∨ c = '_' ∨ c = '$') ∧
      (∀ d ∈ cs, d.isAlphanum ∨ d = '_' ∨ d = '$') ∧ ∀ k : Keyword, k.text.toList ≠ c :: cs := by
  unfold IsName at h
  generalize hchars : name.toList = chars at h
  cases h with
  | identifier hc hcs hfree => exact ⟨_, _, rfl, hc, hcs, hfree⟩

/-- A name is neither a reserved word nor a number. -/
theorem readWord_of_isName {name : String} (h : IsName name) :
    readWord name = .var name .start := by
  obtain ⟨c, cs, hchars, hc, -, hfree⟩ := exists_of_isName h
  have hkeyword : ∀ k : Keyword, name ≠ k.text := by
    rintro k rfl
    exact hfree k hchars
  have hdigit : c.isDigit = false :=
    isDigit_eq_false_of_isWordStart (by simpa [isWordStart, or_assoc] using hc)
  have htrue : name ≠ "true" := hkeyword .trueK
  have hfalse : name ≠ "false" := hkeyword .falseK
  have hnull : name ≠ "null" := hkeyword .nullK
  rw [readWord, if_neg htrue, if_neg hfalse, if_neg hnull, hchars, if_neg (by simp [hdigit])]

/-- A number that a program can have is written with a digit in front and read as one. -/
theorem readWord_number {x : Float} {spelling : List Char} (h : Spells (.number x) spelling)
    (hfinite : x.isInf = false) : readWord (Number.text x) = .literal (.number x) := by
  cases h with
  | number hwhole hlast hne hexponent =>
    obtain ⟨n, hplain, htext, hvalue⟩ := Number.text_of_decimal rfl hfinite
    obtain ⟨c, cs, hchars, hc⟩ := hplain.exists_cons
    have hnumber := Number.number?_eq_some_iff.mpr
      (Number.toNumber_str_eq_ok_iff.mp (Number.Spelled.plain hplain).toNumber)
    rw [htext, readWord, hnumber, hvalue]
    have hhead : (String.ofList n.text).toList.head?.any Char.isDigit = true := by
      rw [String.toList_ofList, hchars]
      exact hc
    have hword : ∀ word : String, word.toList.head?.any Char.isDigit = false →
        String.ofList n.text ≠ word := by
      rintro word hword rfl
      rw [hhead] at hword
      cases hword
    rw [if_neg (hword "true" rfl), if_neg (hword "false" rfl), if_neg (hword "null" rfl),
      if_pos hhead]
    rfl

theorem bare_array (items : List Expr) : (array items).bare = .array (items.map bare) := by
  rw [bare, relocate, relocateAll_eq_map]
  rfl

theorem bare_apply (callee : Expr) (args : List Expr) (pos : Position) :
    (apply callee args pos).bare = .apply callee.bare (args.map bare) .start := by
  rw [bare, relocate, relocateAll_eq_map]
  rfl

mutual

/-- **Forms are read back.** -/
theorem expr_form : ∀ e : Expr, e.WellFormed → e.Finite → e.form.expr = e.bare
  | .literal (.str s), _, _ => rfl
  | .literal (.number x), hwell, hfinite => by
    cases hwell with
    | number h =>
      -- the text of a finite number begins with a digit, so the word is read as a number
      have hword := readWord_number h (hfinite x .refl)
      rwa [← Form.expr_ofName] at hword
  | .literal (.bool true), _, _ => rfl
  | .literal (.bool false), _, _ => rfl
  | .literal .null, _, _ => rfl
  | .primitive _, hwell, _ => nomatch hwell
  | .var name pos, hwell, _ => by
    rw [form, Form.expr_ofName, readWord_of_isName hwell.of_var]
    rfl
  | .array items, hwell, hfinite => by
    cases hwell with
    | array hitems =>
      -- behind the head stand the forms of the parts, which are read by induction
      have ih := exprs_forms items hitems fun e he => hfinite.child he
      rw [form, expr_headed, ih, bare_array]
      rfl
  | .store name value, hwell, hfinite => by
    cases hwell with
    | store hname hvalue =>
      have ih := expr_form value hvalue (hfinite.child (.head _))
      rw [form, expr_headed, Form.exprs, Form.exprs, Form.exprs, ih]
      exact congrArg (Expr.store · _) (Form.text_ofName name)
  | .update name value pos, hwell, hfinite => by
    cases hwell with
    | update hname hvalue =>
      have ih := expr_form value hvalue (hfinite.child (.head _))
      rw [form, expr_headed, Form.exprs, Form.exprs, Form.exprs, ih]
      exact congrArg (Expr.update · _ _) (Form.text_ofName name)
  | .seq first rest, hwell, hfinite => by
    cases hwell with
    | seq hfirst hrest =>
      have ihfirst := expr_form first hfirst (hfinite.child (.head _))
      have ihrest := expr_form rest hrest (hfinite.child (.tail _ (.head _)))
      rw [form, expr_headed, Form.exprs, Form.exprs, Form.exprs, ihfirst, ihrest]
      rfl
  | .and left right, hwell, hfinite => by
    cases hwell with
    | and hleft hright =>
      have ihleft := expr_form left hleft (hfinite.child (.head _))
      have ihright := expr_form right hright (hfinite.child (.tail _ (.head _)))
      rw [form, expr_headed, Form.exprs, Form.exprs, Form.exprs, ihleft, ihright]
      rfl
  | .or left right, hwell, hfinite => by
    cases hwell with
    | or hleft hright =>
      have ihleft := expr_form left hleft (hfinite.child (.head _))
      have ihright := expr_form right hright (hfinite.child (.tail _ (.head _)))
      rw [form, expr_headed, Form.exprs, Form.exprs, Form.exprs, ihleft, ihright]
      rfl
  | .cond condition consequent alternate, hwell, hfinite => by
    cases hwell with
    | cond hcondition hconsequent halternate =>
      have ihcondition := expr_form condition hcondition (hfinite.child (.head _))
      have ihconsequent := expr_form consequent hconsequent (hfinite.child (.tail _ (.head _)))
      have ihalternate :=
        expr_form alternate halternate (hfinite.child (.tail _ (.tail _ (.head _))))
      rw [form, expr_headed, Form.exprs, Form.exprs, Form.exprs, Form.exprs, ihcondition,
        ihconsequent, ihalternate]
      rfl
  | .loop condition body, hwell, hfinite => by
    cases hwell with
    | loop hcondition hbody =>
      have ihcondition := expr_form condition hcondition (hfinite.child (.head _))
      have ihbody := expr_form body hbody (hfinite.child (.tail _ (.head _)))
      rw [form, expr_headed, Form.exprs, Form.exprs, Form.exprs, ihcondition, ihbody]
      rfl
  | .func params body, hwell, hfinite => by
    cases hwell with
    | func hparams hdistinct hbody =>
      have ih := expr_form body hbody (hfinite.child (.head _))
      rw [form, expr_headed, Form.exprs, Form.exprs, Form.exprs, ih]
      exact congrArg (Expr.func · _) (Form.map_text_ofName params)
  | .apply callee args pos, hwell, hfinite => by
    cases hwell with
    | operator hcount hargs =>
      have ih := exprs_forms args hargs fun e he => hfinite.child (.tail _ he)
      rw [form, expr_headed, ih, assemble_operator, bare_apply]
      rfl
    | apply hcallee hargs =>
      have hprimitive : ∀ p, callee ≠ .primitive p := by
        rintro p rfl
        cases hcallee
      have ihcallee := expr_form callee hcallee (hfinite.child (.head _))
      have ihargs := exprs_forms args hargs fun e he => hfinite.child (.tail _ he)
      rw [form_call hprimitive, expr_headed, Form.exprs, ihcallee, ihargs, bare_apply]
      rfl
  | .block none body, hwell, hfinite => by
    cases hwell with
    | block hlabel hbody =>
      have ih := expr_form body hbody (hfinite.child (.head _))
      rw [form, expr_headed, Option.toList_none, List.map_nil, List.nil_append, Form.exprs,
        Form.exprs, ih]
      rfl
  | .block (some name) body, hwell, hfinite => by
    cases hwell with
    | block hlabel hbody =>
      have ih := expr_form body hbody (hfinite.child (.head _))
      rw [form, expr_headed, Option.toList_some, List.map_singleton, List.singleton_append,
        Form.exprs, Form.exprs, Form.exprs, ih]
      exact congrArg (fun name => Expr.block (some name) _) (Form.text_ofName name)

theorem exprs_forms : ∀ es : List Expr, (∀ e ∈ es, e.WellFormed) → (∀ e ∈ es, e.Finite) →
    Form.exprs (forms es) = es.map bare
  | [], _, _ => rfl
  | e :: es, hwell, hfinite => by
    have ih := expr_form e (hwell e List.mem_cons_self) (hfinite e List.mem_cons_self)
    have ihrest := exprs_forms es (List.forall_mem_cons.mp hwell).2
      (List.forall_mem_cons.mp hfinite).2
    rw [forms, Form.exprs, List.map_cons, ih, ihrest]

end

/-! ## 4. Forms of trees are legible -/

theorem legible_ofName {word : String} {c : Char} {cs : List Char} (hword : word.toList = c :: cs)
    (hparen : c ≠ '(') (hquote : c ≠ '"') (h : ∀ d ∈ c :: cs, ¬ Form.Ends d) :
    (Form.ofName word).Legible := by
  rw [Form.ofName, hword]
  exact .word hparen hquote h

theorem legible_of_isName {name : String} (h : IsName name) : (Form.ofName name).Legible := by
  obtain ⟨c, cs, hchars, hc, hcs, -⟩ := exists_of_isName h
  refine legible_ofName hchars ?_ ?_ (List.forall_mem_cons.mpr ⟨?_, fun d hd => ?_⟩)
  · rintro rfl
    revert hc
    decide
  · rintro rfl
    revert hc
    decide
  · rintro (rfl | rfl) <;> revert hc <;> decide
  · have hd := hcs d hd
    rintro (rfl | rfl) <;> revert hd <;> decide

/-- A word that is known can be looked through. -/
theorem legible_known {c : Char} {cs : List Char} (hparen : c ≠ '(') (hquote : c ≠ '"')
    (h : (c :: cs).all (fun d => !decide (Form.Ends d)) = true) :
    Form.Legible (.word (c :: cs)) := by
  refine .word hparen hquote fun d hd => ?_
  simpa using List.all_eq_true.mp h d hd

theorem legible_ofPrimitive (p : Primitive) : (Form.ofName p.name).Legible := by
  cases p <;> exact legible_known (by decide) (by decide) (by decide)

/-- The text of a number that a program can have. -/
theorem legible_number {x : Float} {spelling : List Char} (h : Spells (.number x) spelling)
    (hfinite : x.isInf = false) : (Form.ofName (Number.text x)).Legible := by
  cases h with
  | number hwhole hlast hne hexponent =>
    obtain ⟨n, hplain, htext, hvalue⟩ := Number.text_of_decimal rfl hfinite
    obtain ⟨c, cs, hchars, hc⟩ := hplain.exists_cons
    have hhas := hplain.wellFormed.hasChar
    rw [hchars] at hhas
    have hword := congrArg String.toList htext
    rw [String.toList_ofList, hchars] at hword
    refine legible_ofName hword ?_ ?_ fun d hd => ?_
    · rintro rfl
      cases hc
    · rintro rfl
      cases hc
    · have hd := hhas d hd
      rintro (rfl | rfl) <;> cases hd

theorem legible_headed {head : String} {fs : List Form} (hhead : (Form.ofName head).Legible)
    (hfs : ∀ f ∈ fs, f.Legible) : (headed head fs).Legible :=
  .group (List.forall_mem_cons.mpr ⟨hhead, hfs⟩)

/-- The first words of the nodes that are no operators. -/
def heads : List String :=
  ["array", ":=", "<-", "seq", "&&", "||", "if", "while", "fun", "call", "block"]

theorem legible_head : ∀ head ∈ heads, (Form.ofName head).Legible := by
  simp only [heads, List.forall_mem_cons]
  refine ⟨?_, ?_, ?_, ?_, ?_, ?_, ?_, ?_, ?_, ?_, ?_, nofun⟩ <;>
    exact legible_known (by decide) (by decide) (by decide)

theorem legible_node {head : String} {fs : List Form} (hhead : head ∈ heads)
    (hfs : ∀ f ∈ fs, f.Legible) : (headed head fs).Legible :=
  legible_headed (legible_head head hhead) hfs

mutual

/-- Every part of a form shows where it ends. -/
theorem legible_form : ∀ e : Expr, e.WellFormed → e.Finite → e.form.Legible
  | .literal (.str s), _, _ => .quoted
  | .literal (.number x), hwell, hfinite => by
    cases hwell with
    | number h => exact legible_number h (hfinite x .refl)
  | .literal (.bool true), _, _ => legible_known (by decide) (by decide) (by decide)
  | .literal (.bool false), _, _ => legible_known (by decide) (by decide) (by decide)
  | .literal .null, _, _ => legible_known (by decide) (by decide) (by decide)
  | .primitive p, _, _ => legible_ofPrimitive p
  | .var name pos, hwell, _ => legible_of_isName hwell.of_var
  | .array items, hwell, hfinite => by
    cases hwell with
    | array hitems =>
      have ih := legible_forms items hitems fun e he => hfinite.child he
      exact legible_node (by decide) ih
  | .store name value, hwell, hfinite => by
    cases hwell with
    | store hname hvalue =>
      have ih := legible_form value hvalue (hfinite.child (.head _))
      exact legible_node (by decide)
        (List.forall_mem_cons.mpr ⟨legible_of_isName hname, List.forall_mem_singleton.mpr ih⟩)
  | .update name value pos, hwell, hfinite => by
    cases hwell with
    | update hname hvalue =>
      have ih := legible_form value hvalue (hfinite.child (.head _))
      exact legible_node (by decide)
        (List.forall_mem_cons.mpr ⟨legible_of_isName hname, List.forall_mem_singleton.mpr ih⟩)
  | .seq first rest, hwell, hfinite => by
    cases hwell with
    | seq hfirst hrest =>
      have ihfirst := legible_form first hfirst (hfinite.child (.head _))
      have ihrest := legible_form rest hrest (hfinite.child (.tail _ (.head _)))
      exact legible_node (by decide)
        (List.forall_mem_cons.mpr ⟨ihfirst, List.forall_mem_singleton.mpr ihrest⟩)
  | .and left right, hwell, hfinite => by
    cases hwell with
    | and hleft hright =>
      have ihleft := legible_form left hleft (hfinite.child (.head _))
      have ihright := legible_form right hright (hfinite.child (.tail _ (.head _)))
      exact legible_node (by decide)
        (List.forall_mem_cons.mpr ⟨ihleft, List.forall_mem_singleton.mpr ihright⟩)
  | .or left right, hwell, hfinite => by
    cases hwell with
    | or hleft hright =>
      have ihleft := legible_form left hleft (hfinite.child (.head _))
      have ihright := legible_form right hright (hfinite.child (.tail _ (.head _)))
      exact legible_node (by decide)
        (List.forall_mem_cons.mpr ⟨ihleft, List.forall_mem_singleton.mpr ihright⟩)
  | .cond condition consequent alternate, hwell, hfinite => by
    cases hwell with
    | cond hcondition hconsequent halternate =>
      have ihcondition := legible_form condition hcondition (hfinite.child (.head _))
      have ihconsequent := legible_form consequent hconsequent (hfinite.child (.tail _ (.head _)))
      have ihalternate :=
        legible_form alternate halternate (hfinite.child (.tail _ (.tail _ (.head _))))
      exact legible_node (by decide)
        (List.forall_mem_cons.mpr ⟨ihcondition,
          List.forall_mem_cons.mpr ⟨ihconsequent, List.forall_mem_singleton.mpr ihalternate⟩⟩)
  | .loop condition body, hwell, hfinite => by
    cases hwell with
    | loop hcondition hbody =>
      have ihcondition := legible_form condition hcondition (hfinite.child (.head _))
      have ihbody := legible_form body hbody (hfinite.child (.tail _ (.head _)))
      exact legible_node (by decide)
        (List.forall_mem_cons.mpr ⟨ihcondition, List.forall_mem_singleton.mpr ihbody⟩)
  | .func params body, hwell, hfinite => by
    cases hwell with
    | func hparams hdistinct hbody =>
      have ih := legible_form body hbody (hfinite.child (.head _))
      have hnames : (Form.group (params.map Form.ofName)).Legible :=
        .group (List.forall_mem_map.mpr fun name hname => legible_of_isName (hparams name hname))
      exact legible_node (by decide)
        (List.forall_mem_cons.mpr ⟨hnames, List.forall_mem_singleton.mpr ih⟩)
  | .apply callee args pos, hwell, hfinite => by
    cases hwell with
    | @operator p _ _ hcount hargs =>
      have ih := legible_forms args hargs fun e he => hfinite.child (.tail _ he)
      exact legible_headed (legible_ofPrimitive p) ih
    | apply hcallee hargs =>
      have hprimitive : ∀ p, callee ≠ .primitive p := by
        rintro p rfl
        cases hcallee
      have ihcallee := legible_form callee hcallee (hfinite.child (.head _))
      have ihargs := legible_forms args hargs fun e he => hfinite.child (.tail _ he)
      rw [form_call hprimitive]
      exact legible_node (by decide)
        (List.forall_mem_cons.mpr ⟨ihcallee, ihargs⟩)
  | .block label body, hwell, hfinite => by
    cases hwell with
    | block hlabel hbody =>
      have ih := legible_form body hbody (hfinite.child (.head _))
      have hnames : ∀ f ∈ label.toList.map Form.ofName, f.Legible :=
        List.forall_mem_map.mpr fun name hname =>
          legible_of_isName (hlabel name (Option.mem_toList.mp hname))
      exact legible_node (by decide)
        (List.forall_mem_append.mpr ⟨hnames, List.forall_mem_singleton.mpr ih⟩)

theorem legible_forms : ∀ es : List Expr, (∀ e ∈ es, e.WellFormed) → (∀ e ∈ es, e.Finite) →
    ∀ f ∈ forms es, f.Legible
  | [], _, _ => nofun
  | e :: es, hwell, hfinite => by
    rw [forms]
    exact List.forall_mem_cons.mpr ⟨legible_form e (hwell e List.mem_cons_self)
      (hfinite e List.mem_cons_self), legible_forms es (List.forall_mem_cons.mp hwell).2
      (List.forall_mem_cons.mp hfinite).2⟩

end

/-! ## 5. Trees with one prefix form -/

theorem bare_eq_of_prefixForm_eq {e f : Expr} (he : e.WellFormed) (hf : f.WellFormed)
    (hefinite : e.Finite) (hffinite : f.Finite) (h : e.prefixForm = f.prefixForm) :
    e.bare = f.bare := by
  have hchars : e.form.chars ++ [] = f.form.chars ++ [] := by
    rw [← text_form, ← text_form] at h
    rw [String.ofList_injective h]
  obtain ⟨hform, -⟩ := Form.chars_unique e.form f.form (legible_form e he hefinite)
    (legible_form f hf hffinite) Form.stops_nil Form.stops_nil hchars
  rw [← expr_form e he hefinite, hform, expr_form f hf hffinite]

/-- **The prefix form is unambiguous.** Two trees of programs without infinite numbers have
one prefix form only if they are the same up to their places. -/
theorem prefix_form_is_unambiguous {source source' : String} {e e' : Expr}
    (he : Expr.parse source = .ok e) (he' : Expr.parse source' = .ok e')
    (hfinite : ∀ x, e.Contains (.literal (.number x)) → x.isInf = false)
    (hfinite' : ∀ x, e'.Contains (.literal (.number x)) → x.isInf = false)
    (h : e.prefixForm = e'.prefixForm) : e.bare = e'.bare :=
  bare_eq_of_prefixForm_eq (wellFormed_of_parse he) (wellFormed_of_parse he') hfinite hfinite' h

/-- A number with a sign, written twice, at two places and in two spellings. -/
theorem prefix_form_of_negative :
    ∃ e e' : Expr, Expr.parse "-2" = .ok e ∧ Expr.parse " - 2.0" = .ok e' ∧
      (∀ x, e.Contains (.literal (.number x)) → x.isInf = false) ∧
      (∀ x, e'.Contains (.literal (.number x)) → x.isInf = false) ∧
      e.prefixForm = e'.prefixForm ∧ e ≠ e' ∧ e.bare = e'.bare := by
  have hparse : Expr.parse "-2" = .ok (.apply (.primitive .neg)
      [.literal (.number (Decimal.toFloat ⟨2, 0⟩))] ⟨1, 0⟩) := rfl
  have hparse' : Expr.parse " - 2.0" = .ok (.apply (.primitive .neg)
      [.literal (.number (Decimal.toFloat ⟨20, -1⟩))] ⟨1, 1⟩) := rfl
  have htwo : Decimal.toFloat ⟨20, -1⟩ = Decimal.toFloat ⟨2, 0⟩ := by decide +kernel
  rw [htwo] at hparse'
  have hfinite : ∀ pos : Position, (Expr.apply (.primitive .neg)
      [.literal (.number (Decimal.toFloat ⟨2, 0⟩))] pos).Finite := by
    intro pos
    have htwoFinite : (literal (.number (Decimal.toFloat ⟨2, 0⟩))).Finite := by
      refine .of_children ?_ nofun
      rintro x ⟨⟩
      decide +kernel
    exact .of_children nofun (List.forall_mem_cons.mpr ⟨.of_children nofun nofun,
      List.forall_mem_singleton.mpr htwoFinite⟩)
  have hsame := prefix_form_is_unambiguous hparse hparse' (hfinite _) (hfinite _) rfl
  refine ⟨_, _, hparse, hparse', hfinite _, hfinite _, rfl, ?_, hsame⟩
  intro hequal
  cases (Expr.apply.inj hequal).2.2

end Expr

end CalcScript
