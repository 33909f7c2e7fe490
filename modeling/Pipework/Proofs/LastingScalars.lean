import Pipework.Proofs.Flatness
import Pipework.Proofs.LastingValues

/-!
# What lasting values come to

A lasting value has, at every moment from which on it does not change, what passes from answers to
what is made of them. So it is a scalar or an empty list if all values that it leads to are stored as
such; and it comes to what it came to at an earlier moment if the same was stored there, be it in the
scope of another node that this one stands for.
-/

namespace Pipework

open Step Resolve

namespace Forest

variable {f f' : Forest} {fixed : Option String → String → Prop} {owner? : Option String}
  {key : String}

/-- The references in a value all lead to values, and only to such as the predicate holds of. -/
def LeadsTo (f : Forest) (P : Option String → String → Prop) (owner? : Option String)
    (raw : Value) : Prop :=
  ∀ path ∈ raw.references, (∃ other? key fields, f.PointsTo owner? path other? key fields) ∧
    ∀ other? key fields, f.PointsTo owner? path other? key fields → P other? key

theorem Lasting.of_leadsTo {raw : Value} (hfixed : fixed owner? key)
    (hraw : f.entry? owner? key = some raw) (h : f.LeadsTo (f.Lasting fixed) owner? raw) :
    f.Lasting fixed owner? key :=
  .intro hfixed hraw (fun path hp => (h path hp).1) fun path hp => (h path hp).2

theorem LeadsTo.of_no_references {P : Option String → String → Prop} {raw : Value}
    (h : raw.references = []) : f.LeadsTo P owner? raw := by
  intro path hp
  rw [h] at hp
  cases hp

/-- A value with a single reference, to its own scope, leads only there. -/
theorem LeadsTo.of_own {P : Option String → String → Prop} {owner : String} {raw : Value}
    (hrefs : raw.references = [[key]]) (hkey : (f.entry? (some owner) key).isSome)
    (h : P (some owner) key) : f.LeadsTo P (some owner) raw := by
  intro path hp
  obtain rfl : path = [key] := by simpa [hrefs] using hp
  refine ⟨⟨some owner, key, [], .own hkey⟩, fun other? key' fields hpoints => ?_⟩
  obtain ⟨rfl, rfl⟩ := hpoints.eq_of_own hkey
  exact h

/-- The value is stored as a scalar or an empty list. -/
def Single (f : Forest) (owner? : Option String) (key : String) : Prop :=
  ∃ raw, f.entry? owner? key = some raw ∧ raw.isSeveral = false

/-- The value is the one that an earlier forest has in a scope that may go by another name, and there
its references lead to what they lead to here. -/
def Echoes (f f' : Forest) (home : Option String → Option String) (owner? : Option String)
    (key : String) : Prop :=
  f.entry? (home owner?) key = f'.entry? owner? key ∧
    ∀ raw, f'.entry? owner? key = some raw → ∀ path ∈ raw.references, ∀ other? key' fields,
      f'.PointsTo owner? path other? key' fields → f.PointsTo (home owner?) path (home other?) key' fields

end Forest

namespace Resolve

section Moment

variable {f f' : Forest} {m : Memo} (hf : f.Sound) (hc : Consistent f m)
  {fixed : Option String → String → Prop}
  (hfixed : ∀ owner? key, fixed owner? key → f.Fixed f' owner? key)

include hf hc hfixed

/-- What passes from what a value leads to on to the value is had by what is remembered of a lasting
one. The induction follows the references, as they lead in the later forest. -/
theorem Stored.induction {P : Option String → String → Value → Prop}
    (hstep : ∀ owner? key raw answer v, fixed owner? key → f'.entry? owner? key = some raw →
      f'.LeadsTo (f'.Lasting fixed) owner? raw →
      (∀ path ∈ raw.references, ∀ w, answer path = .ok w → ∃ other? key' fields u,
        f'.PointsTo owner? path other? key' fields ∧ P other? key' u ∧
          FileField.derive u fields (joinPath path) = .ok w) →
      valueWith answer raw = .ok v → P owner? key v)
    {owner? : Option String} {key : String} (h : f'.Lasting fixed owner? key) {v : Value}
    (hv : Stored f m owner? key v) : P owner? key v := by
  induction h generalizing v with
  | @intro owner? key raw hfix hraw hleads hlasting ih =>
    have hsame := hfixed owner? key hfix
    have hbefore : ∀ path ∈ raw.references, ∀ other? key' fields,
        f'.PointsTo owner? path other? key' fields → f.PointsTo owner? path other? key' fields := by
      intro path hp other? key' fields hpoints
      cases hlasting path hp other? key' fields hpoints with
      | intro hfix' => exact hpoints.before hsame (hfixed other? key' hfix')
    obtain ⟨start, hstart, hvalue⟩ := valueWith_of_stored hf hc (hsame.1.trans hraw)
      (fun path hp => by
        obtain ⟨other?, key', fields, hpoints⟩ := hleads path hp
        exact ⟨other?, key', fields, hbefore path hp other? key' fields hpoints⟩) hv
    refine hstep owner? key raw _ v hfix hraw (fun path hp => ⟨hleads path hp, hlasting path hp⟩)
      (fun path hp w hw => ?_) hvalue
    obtain ⟨other?, key', fields, hpoints⟩ := hleads path hp
    obtain ⟨u, hu, hderive⟩ :=
      stored_of_fromMemory hf (hbefore path hp other? key' fields hpoints) hstart hw
    exact ⟨other?, key', fields, u, hpoints, ih path hp other? key' fields hpoints hu, hderive⟩

/-- A lasting value is a scalar or an empty list if all values that it leads to are stored so. -/
theorem isSeveral_of_stored (hsingle : ∀ owner? key, fixed owner? key → f'.Single owner? key)
    {owner? : Option String} {key : String} (h : f'.Lasting fixed owner? key) {v : Value}
    (hv : Stored f m owner? key v) : v.isSeveral = false := by
  refine Stored.induction hf hc hfixed (P := fun _ _ v => v.isSeveral = false) ?_ h hv
  intro owner? key raw answer v hfix hraw _ hanswer hvalue
  obtain ⟨raw', hraw', hone⟩ := hsingle owner? key hfix
  obtain rfl := Option.some.inj (hraw.symm.trans hraw')
  refine isSeveral_of_valueWith hone (fun path hp w hw => ?_) hvalue
  obtain ⟨_, _, _, u, -, hu, hderive⟩ := hanswer path hp w hw
  rw [(FileField.shapes_derive hderive).several, hu]

/-- A lasting value comes to what it came to at an earlier moment if all values that it leads to are
those from then. -/
theorem stored_of_echoes {f₀ : Forest} {m₀ : Memo} (hf₀ : f₀.Sound) (hc₀ : Consistent f₀ m₀)
    {home : Option String → Option String}
    (hechoes : ∀ owner? key, fixed owner? key → f₀.Echoes f' home owner? key)
    {owner? : Option String} {key : String} (h : f'.Lasting fixed owner? key) {u v : Value}
    (hu : Stored f₀ m₀ (home owner?) key u) (hv : Stored f m owner? key v) : u = v := by
  refine Stored.induction hf hc hfixed
    (P := fun owner? key v => ∀ u, Stored f₀ m₀ (home owner?) key u → u = v) ?_ h hv u hu
  intro owner? key raw answer v hfix hraw hleads hanswer hvalue u hu
  obtain ⟨hentry, hpoints₀⟩ := hechoes owner? key hfix
  obtain ⟨start, hstart, hvalue₀⟩ := valueWith_of_stored hf₀ hc₀ (hentry.trans hraw)
    (fun path hp => by
      obtain ⟨⟨other?, key', fields, hpoints⟩, -⟩ := hleads path hp
      exact ⟨_, _, _, hpoints₀ raw hraw path hp other? key' fields hpoints⟩) hu
  refine valueWith_unique (fun path hp a b ha hb => ?_) hvalue₀ hvalue
  obtain ⟨other?, key', fields, w, hpoints, hw, hderive⟩ := hanswer path hp b hb
  obtain ⟨w₀, hw₀, ha⟩ := stored_of_fromMemory hf₀
    (hpoints₀ raw hraw path hp other? key' fields hpoints) hstart ha
  obtain rfl := hw w₀ hw₀
  exact Except.ok.inj (ha.symm.trans hderive)

end Moment

end Resolve

end Pipework
