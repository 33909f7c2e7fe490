import Pipework.Proofs.Gathering
import Pipework.Proofs.ReadMeanings

/-!
# Receiving single values output by output

A text that refers to outputs receives them one after another. What it comes to stays the same all
along: it is text in which the references to the outputs are left that have not been handed on, and in
the end the text, or the value, that it came to when the graph was built.
-/

namespace Pipework

open Step Resolve

namespace FileField

/-- A part of a text is a text. -/
theorem isText_of_derive {v w : Value} {segments : List String} {reference : String}
    (hv : (v.text?).isSome) (h : derive v segments reference = .ok w) : (w.text?).isSome := by
  induction segments generalizing v with
  | nil => rwa [← Except.ok.inj h]
  | cons segment segments ih =>
    obtain ⟨u, hu, h⟩ := derive_cons.mp h
    refine ih ?_ h
    cases v with
    | str text =>
      change deriveScalar reference segment (.str text) = .ok u at hu
      rw [deriveScalar] at hu
      split at hu
      · rw [← Except.ok.inj hu]
        rfl
      · cases hu
    | bool _ | int _ | float _ | list _ => cases hv

end FileField

namespace Graph

/-- What a text has become while some of the outputs that it refers to were handed to it. -/
inductive Receiving (g : Graph) (node : Node) (id : ScopeId) (text : String) (v : Value) (m : Memo)
    (got : NodeId → String → Prop) : Value → Prop
  | arrived (hall : ∀ path ∈ Template.references text, ∀ owner,
      g.Asks node (g.scope.forest.seat id) path owner → got owner.node.id owner.parameter.name) :
      Receiving g node id text v m got v
  | waiting {rest : String}
      (hvalue : valueWith (fromMemory g.scope.forest m (g.scope.forest.seat id)) (.str rest) = .ok v)
      (hfewer : Template.references rest ⊆ Template.references text)
      (hleft : ∀ path ∈ Template.references text, ∀ owner,
        g.Asks node (g.scope.forest.seat id) path owner →
          ¬ got owner.node.id owner.parameter.name → path ∈ Template.references rest)
      (hwhole : (Template.singleReference? rest).isSome ∨
        (∃ c, Template.Piece.char c ∈ Template.pieces 0 rest.toList) ∨
        (∀ path u, fromMemory g.scope.forest m (g.scope.forest.seat id) path = .ok u →
          (u.text?).isSome) ∨
        ∀ path ∈ Template.references rest, ∀ u,
          fromMemory g.scope.forest m (g.scope.forest.seat id) path = .ok u → u.render ≠ "") :
      Receiving g node id text v m got (.str rest)

variable {g : Graph} {node : Node} {p : Parameter} {id : ScopeId} {text : String} {v : Value}
  {m : Memo} {got : NodeId → String → Prop}

/-- A reference asks for one output only. -/
theorem Asks.unique {start : ScopeId} {path : List String} {owner owner' : OutputOwner}
    (h : g.Asks node start path owner) (h' : g.Asks node start path owner') : owner = owner' :=
  Option.some.inj (h.1.symm.trans h'.1)

section Receives

variable (h : g.Receives node p id text v m)

include h

/-- A reference in the text stands for a scalar. -/
theorem Receives.isList_of_answer {path : List String} {w : Value}
    (hw : fromMemory g.scope.forest m (g.scope.forest.seat id) path = .ok w) : w.isList = false := by
  obtain ⟨other, _, u, -, hu, hderive⟩ := fromMemory_eq_ok.mp hw
  exact FileField.isList_of_derive (h.singles other u hu) hderive

/-- An output that the text refers to is known. -/
theorem Receives.exists_lookup {path : List String} (hp : path ∈ Template.references text)
    {owner : OutputOwner} (hasks : g.Asks node (g.scope.forest.seat id) path owner) :
    ∃ u, m.lookup owner.scope = some u := by
  obtain ⟨w, hw⟩ := exists_answer h.value hp
  obtain ⟨u, hu, -⟩ := exists_lookup_of_fromMemory (h.named path hp owner hasks).2.1 hw
  exact ⟨u, hu⟩

/-- At first nothing was handed on. -/
theorem Receives.receiving :
    g.Receiving node id text v m (fun _ _ => False) (.str text) := by
  refine .waiting h.value (List.Subset.refl _) (fun _ hp _ _ _ => hp) ?_
  refine h.whole.imp_right (Or.imp_right (Or.imp_left fun htexts path w hw => ?_))
  obtain ⟨other, _, u, -, hu, hderive⟩ := fromMemory_eq_ok.mp hw
  exact FileField.isText_of_derive (htexts other u hu) hderive

/-- What the text has become comes to the same, as long as what it refers to comes to the same. -/
theorem Receiving.value {now : Value} (hr : g.Receiving node id text v m got now) :
    valueWith (fromMemory g.scope.forest m (g.scope.forest.seat id)) now = .ok v := by
  cases hr with
  | arrived _ => exact valueWith_of_not_mayRefer h.clear
  | waiting hvalue _ _ _ => exact hvalue

section Output

variable (hm : g.Mirrored) {path : List String} (hp : path ∈ Template.references text)
  {owner : OutputOwner} (hasks : g.Asks node (g.scope.forest.seat id) path owner)
  (hheld : (g.scope.forest.raw? owner.scope).isSome)

include hm hp hasks hheld

/-- Whatever is written as a reference to an output that the text refers to reads that output. -/
theorem Receives.lookup?_of_fieldsOf? {path' fields' : List String}
    (hfields : Merge.fieldsOf? owner.parameter.name [owner.node.name, owner.node.name] path' =
      some fields') :
    path' = owner.node.name :: owner.parameter.name :: fields' ∧
      g.scope.forest.lookup? (g.scope.forest.seat id) path' = some (owner.scope, 2) := by
  obtain ⟨-, hlookup, fields, hpath⟩ := h.named path hp owner hasks
  obtain rfl := Merge.fieldsOf?_eq_some.mp hfields
  exact ⟨rfl, Forest.lookup?_behind hm.sound (hpath ▸ hlookup) hheld fields'⟩

/-- Whatever is written as a reference to the output, and asks for one, asks for that output. -/
theorem Receives.owner_of_fieldsOf? {path' fields' : List String} {owner' : OutputOwner}
    (hfields : Merge.fieldsOf? owner.parameter.name [owner.node.name, owner.node.name] path' =
      some fields')
    (hasks' : g.Asks node (g.scope.forest.seat id) path' owner') : owner' = owner := by
  obtain ⟨-, hlookup, -⟩ := h.named path hp owner hasks
  have hthere := hasks.1
  rw [hlookup] at hthere
  have hthere' := hasks'.1
  rw [(h.lookup?_of_fieldsOf? hm hp hasks hheld hfields).2] at hthere'
  exact Option.some.inj (hthere'.symm.trans hthere)

/-- It stands for what the output is known to be, or for a field of that. -/
theorem Receives.answer_of_fieldsOf? {u : Value} (hu : m.lookup owner.scope = some u)
    {path' fields' : List String}
    (hfields : Merge.fieldsOf? owner.parameter.name [owner.node.name, owner.node.name] path' =
      some fields') :
    fromMemory g.scope.forest m (g.scope.forest.seat id) path' =
      FileField.derive u fields' (joinPath path') := by
  obtain ⟨rfl, hat⟩ := h.lookup?_of_fieldsOf? hm hp hasks hheld hfields
  rw [fromMemory, hat]
  simp only [hu, List.drop_succ_cons, List.drop_zero]

/-- One more output is put into the text. -/
theorem Receiving.merge {now : Value} (hr : g.Receiving node id text v m got now)
    (hnew : ¬ got owner.node.id owner.parameter.name) {u : Value} (hu : m.lookup owner.scope = some u)
    {link : DataLink} (hproperty : link.sourceProperty = owner.parameter.name)
    (hcard : link.cardinality = .oneToOne) (hindex : link.splitIndex? = none) {target : String}
    {declared? : Option Value} {value : Value}
    (hmerge : Merge.merge (.data link) target (some now) declared? u
      [owner.node.name, owner.node.name] = .ok (some value)) :
    g.Receiving node id text v m (Further got owner) value := by
  cases hr with
  | arrived hall => exact absurd (hall path hp owner hasks) hnew
  | @waiting rest hvalue hfewer hleft hwhole =>
    have hsubstitute : Merge.substitute rest u owner.parameter.name
        [owner.node.name, owner.node.name] = .ok value := by
      rw [Merge.merge, hcard] at hmerge
      have hfill := Merge.of_lift hmerge
      simpa only [Merge.fill, Merge.pick, hindex, hproperty] using hfill
    have hin := hleft path hp owner hasks hnew
    have hmention : ∃ path ∈ Template.references rest, (Merge.fieldsOf? owner.parameter.name
        [owner.node.name, owner.node.name] path).isSome := by
      obtain ⟨-, -, fields, hpath⟩ := h.named path hp owner hasks
      exact ⟨path, hin, Option.isSome_of_eq_some (Merge.fieldsOf?_eq_some.mpr hpath)⟩
    rcases Merge.valueWith_substitute
      (fun _ _ _ hfields => h.answer_of_fieldsOf? hm hp hasks hheld hu hfields)
      (h.singles owner.scope u hu) (fun _ _ => h.isList_of_answer) hmention hvalue h.clear hwhole
      hsubstitute with ⟨rfl, hsingle⟩ | ⟨text', rfl, hvalue', hfewer', hleft', hwhole'⟩
    · refine .arrived fun path' hp' owner' hasks' => ?_
      by_cases hgot : got owner'.node.id owner'.parameter.name
      · exact .inl hgot
      · obtain ⟨only, honly⟩ := Option.isSome_iff_exists.mp hsingle
        have hin' := hleft path' hp' owner' hasks' hgot
        rw [Template.references_of_singleReference? honly] at hin hin'
        obtain rfl := List.mem_singleton.mp hin
        obtain rfl := List.mem_singleton.mp hin'
        obtain rfl := hasks'.unique hasks
        exact .inr ⟨rfl, rfl⟩
    · refine .waiting hvalue' (fun path' hp' => hfewer (hfewer' path' hp')) ?_
        (.inr (hwhole'.imp_right .inl))
      intro path' hp' owner' hasks' hnot
      have hbefore : ¬ got owner'.node.id owner'.parameter.name := fun hgot => hnot (.inl hgot)
      refine hleft' path' (hleft path' hp' owner' hasks' hbefore) ?_
      refine Option.eq_none_iff_forall_ne_some.mpr fun fields' hfields => hnot ?_
      obtain rfl := h.owner_of_fieldsOf? hm hp hasks hheld hfields hasks'
      exact .inr ⟨rfl, rfl⟩

end Output

end Receives

end Graph

end Pipework
