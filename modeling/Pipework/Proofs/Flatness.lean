import Pipework.Graph.Configure
import Pipework.Proofs.Broadcast
import Pipework.Proofs.Leaves

/-!
# Lists of scalars

Where no list holds a list, resolving values, taking parts of them and handing them on makes no
such list either. Several values come about only where there were several before: a value that
is a scalar or an empty list resolves to one as long as its references do.
-/

namespace Pipework

open Step

namespace Value

/-- Whether no list in the value holds a list. -/
def isFlat : Value → Bool
  | .list items => items.all (!·.isList)
  | _ => true

/-- Whether the value is a list with elements. -/
def isSeveral : Value → Bool
  | .list (_ :: _) => true
  | _ => false

/-- A scalar is no list with a list in it. -/
theorem isFlat_of_scalar {v : Value} (h : v.isList = false) : v.isFlat = true := by
  cases v with
  | list items => cases h
  | bool _ | int _ | float _ | str _ => rfl

/-- A scalar is not several values. -/
theorem isSeveral_of_scalar {v : Value} (h : v.isList = false) : v.isSeveral = false := by
  cases v with
  | list items => cases h
  | bool _ | int _ | float _ | str _ => rfl

/-- A list has no list in it just if all its elements are scalars. -/
theorem isFlat_list {items : List Value} :
    (list items).isFlat = true ↔ ∀ item ∈ items, item.isList = false := by
  simp [isFlat]

/-- A list is not several values just if it is empty. -/
theorem isSeveral_list {items : List Value} : (list items).isSeveral = false ↔ items = [] := by
  cases items <;> simp [isSeveral]

/-- Several values are a list with an element. -/
theorem exists_of_isSeveral {v : Value} (h : v.isSeveral = true) :
    ∃ item items, v = list (item :: items) := by
  cases v with
  | list items =>
    cases items with
    | nil => cases h
    | cons item items => exact ⟨item, items, rfl⟩
  | bool _ | int _ | float _ | str _ => cases h

/-- What is not several values is a scalar or the empty list. -/
theorem isSeveral_eq_false {v : Value} :
    v.isSeveral = false ↔ v.isList = false ∨ v = .list [] := by
  cases v with
  | list items => simp [isSeveral_list, isList]
  | bool _ | int _ | float _ | str _ => simp [isSeveral, isList]

/-- The elements of a value are scalars if no list in it holds a list. -/
theorem isList_of_mem_toList {v item : Value} (h : v.isFlat = true) (hi : item ∈ v.toList) :
    item.isList = false := by
  cases v with
  | list items => exact isFlat_list.mp h item hi
  | bool _ | int _ | float _ | str _ =>
    obtain rfl := List.mem_singleton.mp hi
    rfl

/-- What is made of a value has elements just if the value has, holds no list in a list if the
value holds none, and is a scalar if the value is one. -/
structure Shapes (v w : Value) : Prop where
  /-- There are several values just if there were. -/
  several : w.isSeveral = v.isSeveral
  /-- No list in a list comes about. -/
  flat : v.isFlat = true → w.isFlat = true
  /-- A scalar becomes no list. -/
  scalar : v.isList = false → w.isList = false

theorem shapes_self (v : Value) : Shapes v v := ⟨rfl, id, id⟩

/-- The shape is kept from one value to the next. -/
theorem Shapes.trans {u v w : Value} (h : Shapes u v) (h' : Shapes v w) : Shapes u w where
  several := h'.several.trans h.several
  flat hu := h'.flat (h.flat hu)
  scalar hu := h'.scalar (h.scalar hu)

/-- From scalar to scalar the shape is kept. -/
theorem shapes_of_scalars {v w : Value} (hv : v.isList = false) (hw : w.isList = false) :
    Shapes v w where
  several := by rw [isSeveral_of_scalar hv, isSeveral_of_scalar hw]
  flat _ := isFlat_of_scalar hw
  scalar _ := hw

/-- A list keeps its shape if scalars in it stay scalars. -/
theorem shapes_of_forall₂ {items items' : List Value}
    (h : List.Forall₂ (fun a b => a.isList = false → b.isList = false) items items') :
    Shapes (.list items) (.list items') where
  several := by cases h <;> rfl
  flat hflat := by
    refine isFlat_list.mpr fun b hb => ?_
    obtain ⟨a, ha, hab⟩ := exists_of_mem_right h hb
    exact hab (isFlat_list.mp hflat a ha)
  scalar hlist := nomatch hlist

/-- Changing the scalars of a value keeps its shape, if what each comes to is a scalar. -/
theorem shapes_mapLeavesM {ε : Type} {f : Value → Except ε Value} {v w : Value}
    (hscalar : ∀ v w, f v = .ok w → w.isList = false) (h : v.mapLeavesM f = .ok w) :
    Shapes v w := by
  cases v with
  | list items =>
    rw [mapLeavesM] at h
    obtain ⟨items', hitems, h⟩ := except_bind_eq_ok.mp h
    obtain rfl := Except.ok.inj h
    exact shapes_of_forall₂ ((forall₂_of_mapAllLeavesM hitems).imp fun _ _ hab ha =>
      isList_of_mapLeavesM hscalar ha hab)
  | bool _ | int _ | float _ | str _ => exact shapes_of_scalars rfl (hscalar _ w h)

/-- The scalars of a list are changed element by element. -/
theorem mapAllLeaves_eq (f : Value → Value) (items : List Value) :
    mapAllLeaves f items = items.map (mapLeaves f) := by
  induction items with
  | nil => rfl
  | cons item items ih => rw [mapAllLeaves, ih, List.map_cons]

/-- Changing the scalars of a value to scalars keeps its shape. -/
theorem shapes_mapLeaves {f : Value → Value}
    (hscalar : ∀ v, v.isList = false → (f v).isList = false) (v : Value) :
    Shapes v (v.mapLeaves f) := by
  cases v with
  | list items =>
    rw [mapLeaves, mapAllLeaves_eq]
    refine shapes_of_forall₂ (List.forall₂_map_right_iff.mpr ?_)
    refine List.forall₂_same.mpr fun item _ hitem => ?_
    cases item with
    | list _ => cases hitem
    | bool _ | int _ | float _ | str _ => exact hscalar _ rfl
  | bool _ | int _ | float _ | str _ => exact shapes_of_scalars rfl (hscalar _ rfl)

end Value

open Value

namespace FileField

/-- Taking a part of a value keeps its shape. -/
theorem shapes_derive {v w : Value} {segments : List String} {reference : String}
    (h : derive v segments reference = .ok w) : Shapes v w := by
  induction segments generalizing v with
  | nil =>
    obtain rfl := Except.ok.inj h
    exact shapes_self v
  | cons segment segments ih =>
    obtain ⟨u, hu, h⟩ := derive_cons.mp h
    exact (shapes_mapLeavesM isList_of_deriveScalar hu).trans (ih h)

end FileField

namespace Resolve

variable {answer : List String → Except ScopeError Value}

/-- A template that only empty lists were put into is widened by nothing that is not several values. -/
theorem width_eq_zero_of_widen {template : String} {width wider : Option Nat} {part : Value}
    (hpart : part.isSeveral = false) (hwidth : ∀ n ∈ width, n = 0)
    (h : widen template width part = .ok wider) : ∀ n ∈ wider, n = 0 := by
  rw [widen.eq_def] at h
  split at h
  · split at h
    · obtain rfl := Except.ok.inj h
      exact hwidth
    · cases h
  next hright =>
    obtain rfl := Except.ok.inj h
    cases part with
    | list items =>
      obtain rfl := isSeveral_list.mp hpart
      obtain rfl := Option.some.inj hright
      simp
    | bool _ | int _ | float _ | str _ => cases hright
  · obtain rfl := Except.ok.inj h
    exact hwidth

/-- What is known of the width of a template stays known as long as the answers to its references
keep it so. -/
theorem known_width_of_gather {W : Option Nat → Prop} {P : Value → Prop} {template : String}
    (hwiden : ∀ part width wider, P part → W width → widen template width part = .ok wider → W wider)
    {tokens : List Token}
    (hanswer : ∀ path ∈ tokens.filterMap Token.path?, ∀ w, answer path = .ok w → P w)
    {width : Option Nat} (hwidth : W width) {out : List Value × Option Nat} {m m' : Memo}
    (h : gather (answering answer) template width tokens m = .ok out m') : W out.2 := by
  induction tokens generalizing width out m m' with
  | nil =>
    obtain ⟨rfl, -⟩ := pure_eq_ok.mp h
    exact hwidth
  | cons token tokens ih =>
    cases token with
    | literal text =>
      rw [gather] at h
      obtain ⟨rest, _, hrest, h⟩ := bind_eq_ok.mp h
      obtain ⟨rfl, -⟩ := pure_eq_ok.mp h
      have hothers : W rest.2 := ih hanswer hwidth hrest
      exact hothers
    | reference path =>
      rw [gather] at h
      obtain ⟨part, _, hpart, h⟩ := bind_eq_ok.mp h
      obtain ⟨wider, _, hwider, h⟩ := bind_eq_ok.mp h
      obtain ⟨rest, _, hrest, h⟩ := bind_eq_ok.mp h
      obtain ⟨rfl, -⟩ := pure_eq_ok.mp h
      have hone : P part := hanswer path (List.mem_cons_self ..) part (ofExcept_eq_ok.mp hpart).1
      have hknown := hwiden part width wider hone hwidth (ofExcept_eq_ok.mp hwider).1
      have hothers : W rest.2 :=
        ih (fun path hp => hanswer path (List.mem_cons_of_mem _ hp)) hknown hrest
      exact hothers

/-- Lists without elements leave a template no place for several texts. -/
theorem width_eq_zero_of_gather {template : String} {tokens : List Token}
    (hanswer : ∀ path ∈ tokens.filterMap Token.path?, ∀ w, answer path = .ok w →
      w.isSeveral = false) {width : Option Nat} (hwidth : ∀ n ∈ width, n = 0)
    {out : List Value × Option Nat} {m m' : Memo}
    (h : gather (answering answer) template width tokens m = .ok out m') :
    ∀ n ∈ out.2, n = 0 :=
  known_width_of_gather (W := fun width => ∀ n ∈ width, n = 0) (P := fun part => part.isSeveral = false)
    (fun _ _ _ => width_eq_zero_of_widen) hanswer hwidth h

/-- Among scalars no list gives a template a width. -/
theorem width_eq_none_of_gather {template : String} {tokens : List Token}
    (hanswer : ∀ path ∈ tokens.filterMap Token.path?, ∀ w, answer path = .ok w → w.isList = false)
    {out : List Value × Option Nat} {m m' : Memo}
    (h : gather (answering answer) template none tokens m = .ok out m') : out.2 = none := by
  refine known_width_of_gather (W := (· = none))
    (fun part width wider hpart hwidth hwider => ?_) hanswer rfl h
  subst hwidth
  cases part with
  | list items => cases hpart
  | bool _ | int _ | float _ | str _ => exact (Except.ok.inj hwider).symm

/-- A line of a template is a text. -/
theorem isList_of_lineAt {parts : List Value} {place : Nat} {v : Value}
    (h : lineAt parts place = .ok v) : v.isList = false := by
  obtain ⟨texts, -, h⟩ := except_bind_eq_ok.mp h
  obtain rfl := Except.ok.inj h
  rfl

/-- What a template comes to has no list in a list. -/
theorem isFlat_of_assemble {parts : List Value} {width : Option Nat} {v : Value}
    (h : assemble parts width = .ok v) : v.isFlat = true := by
  cases width with
  | none =>
    obtain rfl := Except.ok.inj h
    rfl
  | some width =>
    obtain ⟨lines, hlines, h⟩ := except_bind_eq_ok.mp h
    obtain rfl := Except.ok.inj h
    refine isFlat_list.mpr fun line hline => ?_
    obtain ⟨place, -, hplace⟩ := exists_of_mem_right (forall₂_of_mapM_ok hlines) hline
    exact isList_of_lineAt hplace

/-- A template that only empty lists were put into does not come to several values. -/
theorem isSeveral_of_assemble {parts : List Value} {width : Option Nat} {v : Value}
    (hwidth : ∀ n ∈ width, n = 0) (h : assemble parts width = .ok v) : v.isSeveral = false := by
  cases width with
  | none =>
    obtain rfl := Except.ok.inj h
    rfl
  | some width =>
    obtain rfl := hwidth width rfl
    obtain rfl := Except.ok.inj h
    rfl

/-- What holds of all answers to the references in a text and of all that is put together of them
holds of what the text comes to. -/
theorem of_evaluate {P : Value → Prop} {template : String} {v : Value} {m m' : Memo}
    (hanswer : ∀ path ∈ Template.references template, ∀ w, answer path = .ok w → P w)
    (hput : ∀ out m m', gather (answering answer) template none (Template.tokenize template) m =
      .ok out m' → ∀ v, assemble out.1 out.2 = .ok v → P v)
    (h : evaluate (answering answer) template m = .ok v m') : P v := by
  rcases evaluate_cases template with ⟨path, htokens, heq⟩ | heq
  · rw [heq] at h
    refine hanswer path ?_ v (ofExcept_eq_ok.mp h).1
    simp [Template.references, htokens, Token.path?]
  · rw [heq] at h
    obtain ⟨out, t, hout, h⟩ := bind_eq_ok.mp h
    exact hput out m t hout v (ofExcept_eq_ok.mp h).1

/-- A value that is a scalar or an empty list comes to one, if its references do. -/
theorem isSeveral_of_valueWith {raw v : Value} (hraw : raw.isSeveral = false)
    (hanswer : ∀ path ∈ raw.references, ∀ w, answer path = .ok w → w.isSeveral = false)
    (h : valueWith answer raw = .ok v) : v.isSeveral = false := by
  have h := valueWith_eq_ok.mp h []
  cases raw with
  | str text =>
    rw [value] at h
    split at h
    · exact of_evaluate hanswer (fun out m m' hout v hv =>
        isSeveral_of_assemble (width_eq_zero_of_gather hanswer (by simp) hout) hv) h
    · obtain ⟨rfl, -⟩ := pure_eq_ok.mp h
      rfl
  | list items =>
    obtain rfl := isSeveral_list.mp hraw
    obtain ⟨_, _, hitems, h⟩ := bind_eq_ok.mp h
    obtain ⟨rfl, -⟩ := pure_eq_ok.mp hitems
    obtain ⟨rfl, -⟩ := pure_eq_ok.mp h
    rfl
  | bool _ | int _ | float _ =>
    obtain ⟨rfl, -⟩ := pure_eq_ok.mp h
    rfl

/-- A scalar comes to a scalar, if its references do. -/
theorem isList_of_valueWith {raw v : Value} (hraw : raw.isList = false)
    (hanswer : ∀ path ∈ raw.references, ∀ w, answer path = .ok w → w.isList = false)
    (h : valueWith answer raw = .ok v) : v.isList = false := by
  have h := valueWith_eq_ok.mp h []
  cases raw with
  | list items => cases hraw
  | str text =>
    rw [value] at h
    split at h
    · refine of_evaluate hanswer (fun out m m' hout v hv => ?_) h
      rw [width_eq_none_of_gather hanswer hout] at hv
      obtain rfl := Except.ok.inj hv
      rfl
    · obtain ⟨rfl, -⟩ := pure_eq_ok.mp h
      rfl
  | bool _ | int _ | float _ =>
    obtain ⟨rfl, -⟩ := pure_eq_ok.mp h
    rfl

/-- A scalar resolves to no list with a list in it, if its references stand for none. -/
theorem isFlat_of_value_scalar {raw v : Value} (hraw : raw.isList = false)
    (hanswer : ∀ path ∈ raw.references, ∀ w, answer path = .ok w → w.isFlat = true) {m m' : Memo}
    (h : value (answering answer) raw m = .ok v m') : v.isFlat = true := by
  cases raw with
  | str text =>
    rw [value] at h
    split at h
    · exact of_evaluate hanswer (fun out _ _ _ v hv => isFlat_of_assemble hv) h
    · obtain ⟨rfl, -⟩ := pure_eq_ok.mp h
      rfl
  | list items => cases hraw
  | bool _ | int _ | float _ =>
    obtain ⟨rfl, -⟩ := pure_eq_ok.mp h
    rfl

/-- An item that comes to a list gives its elements to the list around it. -/
theorem isList_of_mem_splice {item resolved v : Value} (hitem : item.isList = false)
    (hflat : resolved.isFlat = true) (hv : v ∈ splice item resolved) : v.isList = false := by
  cases resolved with
  | list inner =>
    rw [splice, hitem] at hv
    exact isFlat_list.mp hflat v hv
  | bool _ | int _ | float _ | str _ =>
    obtain rfl := List.mem_singleton.mp hv
    rfl

/-- The elements of a list resolve to scalars that go side by side into the new list. -/
theorem isList_of_values {items vs : List Value} (hitems : ∀ item ∈ items, item.isList = false)
    (hanswer : ∀ path ∈ allReferences items, ∀ w, answer path = .ok w → w.isFlat = true)
    {m m' : Memo} (h : values (answering answer) items m = .ok vs m') :
    ∀ v ∈ vs, v.isList = false := by
  induction items generalizing vs m m' with
  | nil =>
    obtain ⟨rfl, -⟩ := pure_eq_ok.mp h
    simp
  | cons item items ih =>
    rw [values] at h
    obtain ⟨resolved, _, hresolved, h⟩ := bind_eq_ok.mp h
    obtain ⟨others, _, hothers, h⟩ := bind_eq_ok.mp h
    obtain ⟨rfl, -⟩ := pure_eq_ok.mp h
    have hscalar := hitems item (List.mem_cons_self ..)
    intro v hv
    rcases List.mem_append.mp hv with hv | hv
    · exact isList_of_mem_splice hscalar (isFlat_of_value_scalar hscalar
        (fun path hp => hanswer path (List.mem_append_left _ hp)) hresolved) hv
    · exact ih (fun other ho => hitems other (List.mem_cons_of_mem _ ho))
        (fun path hp => hanswer path (List.mem_append_right _ hp)) hothers v hv

/-- Where neither the value nor what its references come to holds a list in a list, what it comes to
holds none. -/
theorem isFlat_of_valueWith {raw v : Value} (hraw : raw.isFlat = true)
    (hanswer : ∀ path ∈ raw.references, ∀ w, answer path = .ok w → w.isFlat = true)
    (h : valueWith answer raw = .ok v) : v.isFlat = true := by
  have h := valueWith_eq_ok.mp h []
  cases raw with
  | list items =>
    rw [value] at h
    obtain ⟨vs, _, hvs, h⟩ := bind_eq_ok.mp h
    obtain ⟨rfl, -⟩ := pure_eq_ok.mp h
    exact isFlat_list.mpr (isList_of_values (isFlat_list.mp hraw) hanswer hvs)
  | bool _ | int _ | float _ | str _ => exact isFlat_of_value_scalar rfl hanswer h

end Resolve

/-- No value that a scope holds has a list in a list. -/
def Forest.Flat (f : Forest) : Prop := ∀ id raw, f.raw? id = some raw → raw.isFlat = true

/-- Where no list in a forest holds a list, none comes out of resolving. -/
theorem Forest.Flat.inherited {f : Forest} (h : f.Flat) :
    Resolve.Inherited f (·.isFlat = true) where
  derive _ _ _ _ hv hw := (FileField.shapes_derive hw).flat hv
  value id raw _ _ hraw hanswer hv :=
    Resolve.isFlat_of_valueWith (h id raw hraw) (fun path _ => hanswer path) hv

namespace Merge

/-- Replacing references in a text keeps the shape of what is put in. -/
theorem shapes_substitute {raw property : String} {value v : Value} {names : List String}
    (h : substitute raw value property names = .ok v) : Shapes value v := by
  rw [substitute] at h
  split at h
  · split at h
    · exact FileField.shapes_derive h
    · obtain rfl := Except.ok.inj h
      exact shapes_self value
  · split at h
    · obtain rfl := Except.ok.inj h
      exact shapes_self value
    · next hscalar =>
      obtain ⟨texts, -, h⟩ := except_bind_eq_ok.mp h
      obtain rfl := Except.ok.inj h
      exact shapes_of_scalars (by simp_all) rfl

/-- Filling a parameter keeps the shape of the value that is handed on. -/
theorem shapes_fill {link : DataLink} {existing? : Option Value} {value v : Value}
    {names : List String} (h : fill link existing? value names = .ok v) :
    Shapes (pick link value) v := by
  rw [fill.eq_def] at h
  split at h
  · exact shapes_substitute h
  · obtain rfl := Except.ok.inj h
    exact shapes_self _

/-- An edge that hands on the whole value picks nothing from it. -/
theorem pick_of_whole {link : DataLink} (h : link.splitIndex? = none) (value : Value) :
    pick link value = value := by
  rw [pick.eq_def, h]

/-- An element of a list of scalars is a scalar, and so is what stands for a missing one. -/
theorem isList_of_pick {link : DataLink} {place : Nat} (h : link.splitIndex? = some place)
    (hlink : link.value.isList = false) {value : Value} (hvalue : value.isFlat = true) :
    (pick link value).isList = false := by
  rw [pick.eq_def, h]
  cases value with
  | list items =>
    cases hitem : items[place]? with
    | none => simpa [hitem] using hlink
    | some item => simpa [hitem] using isFlat_list.mp hvalue item (List.mem_of_getElem? hitem)
  | bool _ | int _ | float _ | str _ => rfl

/-- A list that gathers has no list in it. -/
theorem isFlat_of_gather {link : DataLink} {existing? declared? : Option Value} {value v : Value}
    {names : List String} {keep : Value → Bool}
    (h : gather link existing? declared? value names keep = .ok v) : v.isFlat = true := by
  obtain ⟨added, -, h⟩ := except_bind_eq_ok.mp h
  obtain rfl := Except.ok.inj h
  exact isFlat_list.mpr fun item hitem =>
    isList_of_mem_allLeaves (mem_of_mem_flattenUnique hitem)

end Merge

namespace Graph

/-- Prefixing a path with a directory keeps the shape. -/
theorem shapes_located (source target : Node) (link : DataLink) (value : Value) :
    Shapes value (located source target link value) := by
  rw [located]
  split
  · split
    · exact shapes_mapLeaves (fun v hv => by cases v <;> first | rfl | exact hv) value
    · exact shapes_self value
  · exact shapes_self value

end Graph

end Pipework
