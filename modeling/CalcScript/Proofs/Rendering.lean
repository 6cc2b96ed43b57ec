/-
`Proofs/Rendering.lean` -- the text of arrays inside arrays.

A text says too little about where `[...]` comes from: a string may hold the same characters.
A `Sketch` is a text with its structure, in which a marker is a marker. `Store.Draws` is the
recursion that opens arrays and closes them again, with no bound on its depth. It always ends,
and the text of the sketch is the text of the value (`Store.exists_draws`).

A place inside a value is an address, the positions to take one after the other. What a sketch
shows at an address is decided by the arrays passed on the way there
(`Store.at?_eq_some_iff`): nothing if one of them comes twice, and otherwise the value there,
drawn inside them. So the marker stands where an array comes again for the first time on its
way, and there is such a place if and only if there is a cycle.
-/
import CalcScript.Proofs.Bisimilarity
import CalcScript.Proofs.Containment
import CalcScript.Store.Text

set_option autoImplicit false

namespace CalcScript

/-! ## 1. Sketches -/

/-- A text with its structure. -/
inductive Sketch
  | leaf (text : String)
  | marker
  | array (elements : List Sketch)

namespace Sketch

/-- The text of a sketch. -/
def text : Sketch → String
  | leaf text => text
  | marker => "[...]"
  | array elements => "[" ++ ", ".intercalate (elements.map text) ++ "]"

/-- The part of a sketch at an address. -/
def at? : Sketch → List Nat → Option Sketch
  | t, [] => some t
  | array elements, i :: address => elements[i]?.bind fun t => t.at? address
  | _, _ :: _ => none

end Sketch

namespace Store

/-- Drawing a value inside the arrays `opened` ends with this sketch. -/
inductive Draws (s : Store) : List ArrayRef → Value → Sketch → Prop
  | leaf {opened v} (hv : ∀ r, v ≠ .array r) : Draws s opened v (.leaf (s.text v))
  | marker {opened r} (hr : r ∈ opened) : Draws s opened (.array r) .marker
  | array {opened r} (hr : r ∉ opened) (draw : Value → Sketch)
      (hdraw : ∀ w ∈ s.items r, Draws s (r :: opened) w (draw w)) :
    Draws s opened (.array r) (.array ((s.items r).toList.map draw))

/-- Writing a value with every array in full ends with this text. -/
inductive WritesPlainly (s : Store) : Value → String → Prop
  | leaf {v} (hv : ∀ r, v ≠ .array r) : WritesPlainly s v (s.text v)
  | array {r} (write : Value → String) (hwrite : ∀ w ∈ s.items r, WritesPlainly s w (write w)) :
    WritesPlainly s (.array r) ("[" ++ ", ".intercalate ((s.items r).toList.map write) ++ "]")

/-- The value at an address inside another, and the arrays passed on the way there, the last
one first, before those that had been `passed` already. -/
def follow (s : Store) : List ArrayRef → Value → List Nat → Option (List ArrayRef × Value)
  | passed, v, [] => some (passed, v)
  | passed, .array r, i :: address =>
    (s.items r).toList[i]?.bind fun v => s.follow (r :: passed) v address
  | _, _, _ :: _ => none

/-! ## 2. The drawing ends -/

variable {s : Store} {n : Nat} {opened passed path : List ArrayRef} {v w : Value}
  {r : ArrayRef} {t u : Sketch} {address : List Nat}

theorem array_or_leaf (v : Value) : (∃ r, v = .array r) ∨ ∀ r, v ≠ .array r := by
  cases v with
  | array r => exact .inl ⟨r, rfl⟩
  | _ => exact .inr nofun

theorem map_items_congr {α : Type} {f g : Value → α} (h : ∀ w ∈ s.items r, f w = g w) :
    (s.items r).toList.map f = (s.items r).toList.map g :=
  List.map_congr_left fun w hw => h w (Array.mem_toList_iff.mp hw)

theorem index_lt_of_mem (hv : v ∈ s.items r) : r.index < s.arrays.size := by
  have hpos := Array.size_pos_of_mem hv
  exact lt_size_of_items (by omega)

theorem textWithin_leaf (hv : ∀ r, v ≠ .array r) (s : Store) (n : Nat) (opened : List ArrayRef) :
    s.textWithin n opened v = s.text v := by
  cases v with
  | array r => exact absurd rfl (hv r)
  | bool b => cases b <;> simp only [text, textWithin]
  | _ => simp only [text, textWithin]

/-- It ends with one sketch at most. -/
theorem Draws.unique (ht : s.Draws opened v t) (hu : s.Draws opened v u) : t = u := by
  induction ht generalizing u with
  | leaf hv =>
    cases hu with
    | leaf => rfl
    | marker _ | array _ _ _ => exact absurd rfl (hv _)
  | marker hr =>
    cases hu with
    | leaf hv => exact absurd rfl (hv _)
    | marker => rfl
    | array hr' _ _ => exact absurd hr hr'
  | @array opened r hr draw _ ih =>
    cases hu with
    | leaf hv => exact absurd rfl (hv _)
    | marker hr' => exact absurd hr' hr
    | array _ draw' hdraw' =>
      rw [map_items_congr fun w hw => ih w hw (hdraw' w hw)]

/-- It ends with one text at most. -/
theorem WritesPlainly.unique {text text' : String} (h : s.WritesPlainly v text)
    (h' : s.WritesPlainly v text') : text = text' := by
  induction h generalizing text' with
  | leaf hv =>
    cases h' with
    | leaf => rfl
    | array _ _ => exact absurd rfl (hv _)
  | @array r write _ ih =>
    cases h' with
    | leaf hv => exact absurd rfl (hv _)
    | array write' hwrite' =>
      rw [map_items_congr fun w hw => ih w hw (hwrite' w hw)]

/-- The drawing ends, and it reads as the text does. The induction is on the bound of the
text, which is never reached. -/
theorem exists_draws (h : s.Room n opened) (v : Value) :
    ∃ t, s.Draws opened v t ∧ t.text = s.textWithin n opened v := by
  induction n generalizing opened v with
  | zero => exact absurd h.pos (Nat.lt_irrefl 0)
  | succ n ih =>
    obtain ⟨r, rfl⟩ | hleaf := array_or_leaf v
    · rw [textWithin]
      by_cases hr : r ∈ opened
      · refine ⟨.marker, .marker hr, ?_⟩
        rw [if_pos (List.contains_iff_mem.mpr hr), Sketch.text]
      · have hitems : ∀ w, ∃ t, w ∈ s.items r →
            s.Draws (r :: opened) w t ∧ t.text = s.textWithin n (r :: opened) w := by
          intro w
          by_cases hw : w ∈ s.items r
          · obtain ⟨t, ht⟩ := ih (h.cons hr (index_lt_of_mem hw)) w
            exact ⟨t, fun _ => ht⟩
          · exact ⟨.marker, fun hin => absurd hin hw⟩
        choose draw hdraw using hitems
        refine ⟨_, .array hr draw fun w hw => (hdraw w hw).1, ?_⟩
        have htexts : ((s.items r).toList.map draw).map Sketch.text =
            (s.items r).toList.map (s.textWithin n (r :: opened)) := by
          rw [List.map_map]
          exact map_items_congr fun w hw => (hdraw w hw).2
        rw [if_neg (mt List.contains_iff_mem.mp hr), Sketch.text, htexts]
    · refine ⟨_, .leaf hleaf, ?_⟩
      rw [textWithin_leaf hleaf, Sketch.text]

/-- Where no cycle is reached, the arrays that have been opened do not come again. What keeps
them away is that all that is still to be written lies strictly inside them. -/
theorem writesPlainly_textWithin (h : s.Room n opened) (hv : s.Acyclic v)
    (hopened : ∀ a ∈ opened, ∀ b, s.Inside v b → Relation.TransGen s.Element a b) :
    s.WritesPlainly v (s.textWithin n opened v) := by
  induction n generalizing opened v with
  | zero => exact absurd h.pos (Nat.lt_irrefl 0)
  | succ n ih =>
    obtain ⟨r, rfl⟩ | hleaf := array_or_leaf v
    · have hr : r ∉ opened := fun hr =>
        hv r (s.inside_self r) (hopened r hr r (s.inside_self r))
      rw [textWithin, if_neg (mt List.contains_iff_mem.mp hr)]
      refine .array _ fun w hw => ?_
      apply ih (h.cons hr (index_lt_of_mem hw)) (hv.of_mem hw)
      intro a ha b hb
      obtain rfl | ha := List.mem_cons.mp ha
      · obtain ⟨c, rfl, hcb⟩ := hb
        exact .head' hw hcb
      · exact hopened a ha b (hb.of_mem hw)
    · rw [textWithin_leaf hleaf]
      exact .leaf hleaf

/-! ## 3. Addresses -/

theorem suffix_of_follow (h : s.follow passed v address = some (path, w)) : passed <:+ path := by
  fun_induction follow s passed v address with
  | case1 passed v =>
    cases h
    exact List.suffix_rfl
  | case2 passed r i address ih =>
    obtain ⟨x, _, hx⟩ := Option.bind_eq_some_iff.mp h
    exact (List.suffix_cons r passed).trans (ih x hx)
  | case3 => cases h

theorem follow_append (s : Store) (passed : List ArrayRef) (v : Value) (front back : List Nat) :
    s.follow passed v (front ++ back) =
      (s.follow passed v front).bind fun (path, w) => s.follow path w back := by
  fun_induction follow s passed v front with
  | case1 => rfl
  | case2 passed r i front ih =>
    rw [List.cons_append, follow, Option.bind_assoc]
    congr 1
    funext x
    exact ih x
  | case3 passed v i front hv =>
    cases v with
    | array r => exact absurd rfl (hv r)
    | _ => rfl

theorem inside_of_follow {b : ArrayRef} (h : s.follow passed v address = some (path, .array b)) :
    s.Inside v b := by
  fun_induction follow s passed v address with
  | case1 passed v =>
    cases h
    exact s.inside_self b
  | case2 passed r i address ih =>
    obtain ⟨x, hx, hfollow⟩ := Option.bind_eq_some_iff.mp h
    have hmem : x ∈ s.items r := Array.mem_toList_iff.mp (List.mem_of_getElem? hx)
    exact (ih x hfollow).of_mem hmem
  | case3 => cases h

/-- What is passed on the way to an array contains it. -/
theorem trans_of_follow {a b : ArrayRef} (h : s.follow passed v address = some (path, .array b))
    (ha : a ∈ path) : a ∈ passed ∨ s.Inside v a ∧ Relation.TransGen s.Element a b := by
  fun_induction follow s passed v address with
  | case1 passed v =>
    cases h
    exact .inl ha
  | case2 passed r i address ih =>
    obtain ⟨x, hx, hfollow⟩ := Option.bind_eq_some_iff.mp h
    have hmem : x ∈ s.items r := Array.mem_toList_iff.mp (List.mem_of_getElem? hx)
    rcases ih x hfollow with hpassed | ⟨hinside, htrans⟩
    · obtain rfl | hpassed := List.mem_cons.mp hpassed
      · obtain ⟨c, rfl, hcb⟩ := inside_of_follow hfollow
        exact .inr ⟨s.inside_self a, .head' hmem hcb⟩
      · exact .inl hpassed
    · exact .inr ⟨hinside.of_mem hmem, htrans⟩
  | case3 => cases h

/-- What a sketch shows at an address is the value there, drawn inside the arrays passed on the
way; where one of these comes twice, the sketch does not reach the address. -/
theorem at?_eq_some_iff (hopened : opened.Nodup) (ht : s.Draws opened v t) :
    t.at? address = some u ↔
      ∃ path w, s.follow opened v address = some (path, w) ∧ path.Nodup ∧ s.Draws path w u := by
  induction address generalizing opened v t with
  | nil =>
    rw [Sketch.at?, follow, Option.some_inj]
    constructor
    · rintro rfl
      exact ⟨opened, v, rfl, hopened, ht⟩
    · rintro ⟨path, w, hpath, _, hu⟩
      cases hpath
      exact ht.unique hu
  | cons i address ih =>
    cases ht with
    | leaf hv =>
      constructor
      · exact nofun
      · rintro ⟨path, w, hpath, _⟩
        cases v with
        | array r => exact absurd rfl (hv r)
        | _ => cases hpath
    | @marker _ r hr =>
      -- the sketch ends here, and every longer way passes `r` twice
      constructor
      · exact nofun
      · rintro ⟨path, w, hpath, hnodup, _⟩
        obtain ⟨x, _, hx⟩ := Option.bind_eq_some_iff.mp hpath
        have htwice := hnodup.sublist (suffix_of_follow hx).sublist
        exact absurd hr (List.nodup_cons.mp htwice).1
    | @array _ r hr draw hdraw =>
      rw [Sketch.at?, follow, List.getElem?_map]
      cases hx : (s.items r).toList[i]? with
      | none => simp
      | some x =>
        have hmem : x ∈ s.items r := Array.mem_toList_iff.mp (List.mem_of_getElem? hx)
        exact ih (hopened.cons hr) (hdraw x hmem)

theorem draws_marker_iff : s.Draws opened v .marker ↔ ∃ r, v = .array r ∧ r ∈ opened := by
  constructor
  · intro h
    cases h with
    | @marker _ r hr => exact ⟨r, rfl, hr⟩
  · rintro ⟨r, rfl, hr⟩
    exact .marker hr

/-- An array that has not been passed is shown with all its elements. -/
theorem at?_array (ht : s.Draws [] v t)
    (h : s.follow [] v address = some (path, .array r)) (hpath : path.Nodup) (hr : r ∉ path) :
    ∃ elements, t.at? address = some (.array elements) ∧
      elements.length = (s.items r).size := by
  have hinside : ∀ a ∈ path, a.index < s.arrays.size := by
    intro a ha
    rcases trans_of_follow h ha with hnil | ⟨_, htrans⟩
    · cases hnil
    · obtain ⟨c, hac, _⟩ := Relation.TransGen.head'_iff.mp htrans
      exact index_lt_of_mem hac
  have hroom : s.Room (s.arrays.size + 1) path := ⟨hpath, hinside, by omega⟩
  obtain ⟨u, hu, _⟩ := exists_draws hroom (.array r)
  have hat := (at?_eq_some_iff List.nodup_nil ht).mpr ⟨path, _, h, hpath, hu⟩
  cases hu with
  | leaf hv => exact absurd rfl (hv r)
  | marker hr' => exact absurd hr' hr
  | array _ draw _ =>
    refine ⟨_, hat, ?_⟩
    rw [List.length_map, Array.length_toList]

/-! ## 4. Cycles -/

/-- What an array contains has an address in it. -/
theorem exists_follow {a b : ArrayRef} (h : Relation.ReflTransGen s.Element a b)
    (passed : List ArrayRef) :
    ∃ address path, s.follow passed (.array a) address = some (path, .array b) := by
  induction h using Relation.ReflTransGen.head_induction_on generalizing passed with
  | refl => exact ⟨[], passed, rfl⟩
  | @head a c hac _ ih =>
    obtain ⟨address, path, hfollow⟩ := ih (a :: passed)
    obtain ⟨i, hi⟩ := List.mem_iff_getElem?.mp (Array.mem_toList_iff.mpr hac)
    refine ⟨i :: address, path, ?_⟩
    rw [follow, hi, Option.bind_some, hfollow]

/-- On a way to an array that had been passed before, there is a first array of that kind. -/
theorem exists_first_repeat (hpassed : passed.Nodup)
    (h : s.follow passed v address = some (path, .array r)) (hr : r ∈ path) :
    ∃ address path r, s.follow passed v address = some (path, .array r) ∧ path.Nodup ∧
      r ∈ path := by
  fun_induction follow s passed v address with
  | case1 passed v =>
    cases h
    exact ⟨[], path, r, rfl, hpassed, hr⟩
  | case2 passed a i address ih =>
    by_cases ha : a ∈ passed
    · exact ⟨[], passed, a, rfl, hpassed, ha⟩
    · obtain ⟨x, hx, hfollow⟩ := Option.bind_eq_some_iff.mp h
      obtain ⟨address', path', r', hfollow', hrest⟩ := ih x (hpassed.cons ha) hfollow
      refine ⟨i :: address', path', r', ?_, hrest⟩
      rw [follow, hx, Option.bind_some, hfollow']
  | case3 => cases h

theorem exists_repeat_iff :
    (∃ address path r, s.follow [] v address = some (path, .array r) ∧ path.Nodup ∧ r ∈ path) ↔
      ∃ a, s.Inside v a ∧ s.OnCycle a := by
  constructor
  · rintro ⟨address, path, r, hfollow, _, hr⟩
    rcases trans_of_follow hfollow hr with hnil | ⟨hinside, hcycle⟩
    · cases hnil
    · exact ⟨r, hinside, hcycle⟩
  · rintro ⟨a, ⟨b, rfl, hba⟩, hcycle⟩
    -- go to `a`, and from there once around
    obtain ⟨front, path, hfront⟩ := exists_follow hba []
    obtain ⟨c, hac, hca⟩ := Relation.TransGen.head'_iff.mp hcycle
    obtain ⟨i, hi⟩ := List.mem_iff_getElem?.mp (Array.mem_toList_iff.mpr hac)
    obtain ⟨back, path', hback⟩ := exists_follow hca (a :: path)
    have hfollow : s.follow [] (.array b) (front ++ i :: back) = some (path', .array a) := by
      rw [follow_append, hfront]
      simp only [Option.bind_some]
      rw [follow, hi, Option.bind_some, hback]
    have ha : a ∈ path' := (suffix_of_follow hback).subset List.mem_cons_self
    exact exists_first_repeat List.nodup_nil hfollow ha

/-- **The text of a value marks its cycles.** Drawing a value ends, whatever its arrays contain.
An array that is met on the way from the value is drawn as the marker if and only if it was
passed on that way, and with all its elements otherwise; so there is a marker if and only if
some array inside the value is on a cycle. Without a cycle the text is the plain one, with every
array in full however often it is shared. -/
theorem text_marks_cycles (s : Store) (v : Value) :
    ∃ t, (∀ u, s.Draws [] v u ↔ u = t) ∧ s.text v = t.text ∧
      (∀ address, t.at? address = some .marker ↔
        ∃ path r, s.follow [] v address = some (path, .array r) ∧ path.Nodup ∧ r ∈ path) ∧
      (∀ address path r, s.follow [] v address = some (path, .array r) → path.Nodup → r ∉ path →
        ∃ elements, t.at? address = some (.array elements) ∧
          elements.length = (s.items r).size) ∧
      ((∃ address, t.at? address = some .marker) ↔ ∃ a, s.Inside v a ∧ s.OnCycle a) ∧
      (s.Acyclic v → ∀ text, s.WritesPlainly v text ↔ text = s.text v) := by
  obtain ⟨t, ht, htext⟩ := exists_draws (.start s) v
  have hmarker : ∀ address, t.at? address = some .marker ↔
      ∃ path r, s.follow [] v address = some (path, .array r) ∧ path.Nodup ∧ r ∈ path := by
    intro address
    rw [at?_eq_some_iff List.nodup_nil ht]
    simp only [draws_marker_iff]
    constructor
    · rintro ⟨path, w, hfollow, hpath, r, rfl, hr⟩
      exact ⟨path, r, hfollow, hpath, hr⟩
    · rintro ⟨path, r, hfollow, hpath, hr⟩
      exact ⟨path, _, hfollow, hpath, r, rfl, hr⟩
  refine ⟨t, fun u => ⟨fun hu => hu.unique ht, ?_⟩, htext.symm, hmarker, ?_, ?_, ?_⟩
  · rintro rfl
    exact ht
  · intro address path r hfollow hpath hr
    exact at?_array ht hfollow hpath hr
  · simp only [hmarker]
    exact exists_repeat_iff
  · intro hacyclic text
    have hplain : s.WritesPlainly v (s.text v) :=
      writesPlainly_textWithin (.start s) hacyclic (List.forall_mem_nil _)
    constructor
    · intro htext'
      exact htext'.unique hplain
    · rintro rfl
      exact hplain

/-- An array that comes twice, and one that comes inside itself. -/
example : { Store.empty with arrays := #[#[.array ⟨1⟩, .array ⟨1⟩, .array ⟨0⟩], #[]] }.text
    (.array ⟨0⟩) = "[[], [], [...]]" := by
  rfl

end Store

end CalcScript
