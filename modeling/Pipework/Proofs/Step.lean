import Mathlib.Order.Defs.Unbundled
import Pipework.Proofs.Basics

/-!
# Steps that may fail and keep what they did

Two ways of speaking about such steps. A step that comes to an end is taken apart into the
steps it is made of, with the states between them. And a step may only move a state to
related ones, whether it fails or not; if the relation is reflexive and transitive, this
passes from parts to wholes.
-/

namespace Pipework.Step

variable {ε σ α β : Type} {s s' : σ}

/-- A result is given back in the state that there is. -/
theorem pure_eq_ok {a b : α} :
    (pure a : EStateM ε σ α) s = .ok b s' ↔ a = b ∧ s = s' := by
  change EStateM.Result.ok a s = _ ↔ _
  simp

/-- Steps one behind the other come to an end if the first does, and the second from where the first came
to. -/
theorem bind_eq_ok {x : EStateM ε σ α} {f : α → EStateM ε σ β} {b : β} :
    (x >>= f) s = .ok b s' ↔ ∃ a t, x s = .ok a t ∧ f a t = .ok b s' := by
  change EStateM.bind x f s = _ ↔ _
  unfold EStateM.bind
  cases x s <;> simp [and_assoc]

/-- A failure is not an end. -/
theorem throw_ne_ok {e : ε} {a : α} : (throw e : EStateM ε σ α) s ≠ .ok a s' := by
  change EStateM.Result.error e s ≠ _
  simp

/-- What is thrown is what a step fails for. -/
theorem throw_eq_error {e e' : ε} :
    (throw e : EStateM ε σ α) s = .error e' s' ↔ e = e' ∧ s = s' :=
  ⟨EStateM.Result.error.inj, fun ⟨he, hs⟩ => by rw [he, hs]; rfl⟩

theorem get_eq_ok {a : σ} : (get : EStateM ε σ σ) s = .ok a s' ↔ s = a ∧ s = s' := by
  change EStateM.Result.ok s s = _ ↔ _
  simp

theorem modify_eq_ok {f : σ → σ} {u : PUnit} :
    (modify f : EStateM ε σ PUnit) s = .ok u s' ↔ f s = s' := by
  change EStateM.Result.ok PUnit.unit (f s) = _ ↔ _
  simp

/-- Two sequences of steps, one behind the other. -/
theorem forM_append_eq_ok {l l' : List α} {f : α → EStateM ε σ PUnit} {u : PUnit} :
    (l ++ l').forM f s = .ok u s' ↔ ∃ t, l.forM f s = .ok ⟨⟩ t ∧ l'.forM f t = .ok u s' := by
  induction l generalizing s with
  | nil => exact ⟨fun h => ⟨s, rfl, h⟩, fun ⟨_, ht, h⟩ => (pure_eq_ok.mp ht).2 ▸ h⟩
  | cons a l ih =>
    constructor
    · intro h
      obtain ⟨w, t', ha, hl⟩ := bind_eq_ok.mp h
      obtain ⟨t, hl, h⟩ := ih.mp hl
      exact ⟨t, bind_eq_ok.mpr ⟨w, t', ha, hl⟩, h⟩
    · rintro ⟨t, hl, h⟩
      obtain ⟨w, t', ha, hl⟩ := bind_eq_ok.mp hl
      exact bind_eq_ok.mpr ⟨w, t', ha, ih.mpr ⟨t, hl, h⟩⟩

/-- Sequences of steps behind each other are one sequence. -/
theorem forM_flatMap_eq_ok {l : List α} {f : α → List β} {x : β → EStateM ε σ PUnit} {u : PUnit} :
    (l.flatMap f).forM x s = .ok u s' ↔ (l.forM fun a => (f a).forM x) s = .ok u s' := by
  induction l generalizing s with
  | nil => rfl
  | cons a l ih =>
    rw [List.flatMap_cons, forM_append_eq_ok]
    constructor
    · rintro ⟨t, ha, hl⟩
      exact bind_eq_ok.mpr ⟨⟨⟩, t, ha, ih.mp hl⟩
    · intro h
      obtain ⟨⟨⟩, t, ha, hl⟩ := bind_eq_ok.mp h
      exact ⟨t, ha, ih.mpr hl⟩

/-- What each step of a sequence keeps when it comes to an end, the sequence keeps. -/
theorem forM_keeps {P : σ → Prop} {l : List α} {f : α → EStateM ε σ PUnit}
    (hf : ∀ a ∈ l, ∀ t u t', P t → f a t = .ok u t' → P t') {u : PUnit} (hs : P s)
    (h : l.forM f s = .ok u s') : P s' := by
  induction l generalizing s with
  | nil =>
    obtain ⟨-, rfl⟩ := pure_eq_ok.mp h
    exact hs
  | cons a l ih =>
    obtain ⟨v, t, ha, hl⟩ := bind_eq_ok.mp h
    refine ih (fun b hb => hf b (List.mem_cons_of_mem a hb)) ?_ hl
    exact hf a (by simp) s v t hs ha

/-- What each step of a sequence keeps when it comes to an end, the sequence keeps, whatever its
results. -/
theorem mapM_keeps {P : σ → Prop} {l : List α} {f : α → EStateM ε σ β}
    (hf : ∀ a ∈ l, ∀ t b t', P t → f a t = .ok b t' → P t') {bs : List β} (hs : P s)
    (h : l.mapM f s = .ok bs s') : P s' := by
  induction l generalizing s bs with
  | nil =>
    obtain ⟨-, rfl⟩ := pure_eq_ok.mp h
    exact hs
  | cons a l ih =>
    rw [List.mapM_cons] at h
    obtain ⟨b, t, ha, h⟩ := bind_eq_ok.mp h
    obtain ⟨cs, t', hl, h⟩ := bind_eq_ok.mp h
    obtain ⟨-, rfl⟩ := pure_eq_ok.mp h
    refine ih (fun b hb => hf b (List.mem_cons_of_mem a hb)) ?_ hl
    exact hf a (by simp) s b t hs ha

/-- What each step of a sequence keeps of its state and its result, the sequence keeps. -/
theorem foldlM_keeps {P : β → σ → Prop} {l : List α} {f : β → α → EStateM ε σ β}
    (hf : ∀ a ∈ l, ∀ b t b' t', P b t → f b a t = .ok b' t' → P b' t') {b b' : β} (hs : P b s)
    (h : l.foldlM f b s = .ok b' s') : P b' s' := by
  induction l generalizing s b with
  | nil =>
    obtain ⟨rfl, rfl⟩ := pure_eq_ok.mp h
    exact hs
  | cons a l ih =>
    rw [List.foldlM_cons] at h
    obtain ⟨c, t, ha, hl⟩ := bind_eq_ok.mp h
    refine ih (fun e he => hf e (List.mem_cons_of_mem a he)) ?_ hl
    exact hf a (by simp) b s c t hs ha

/-- Behind a step that comes to an end goes on what follows it. -/
theorem bind_of_ok {x : EStateM ε σ α} {f : α → EStateM ε σ β} {a : α} {t : σ}
    (h : x s = .ok a t) : (x >>= f) s = f a t := by
  change EStateM.bind x f s = _
  rw [EStateM.bind, h]

/-- Two sequences of two steps come to the same if the second steps do where the first step leads. -/
theorem bind_congr_of_ok {x : EStateM ε σ α} {f f' : α → EStateM ε σ β}
    (h : ∀ a t, x s = .ok a t → f a t = f' a t) : (x >>= f) s = (x >>= f') s := by
  change EStateM.bind x f s = EStateM.bind x f' s
  unfold EStateM.bind
  cases hx : x s with
  | ok a t => exact h a t hx
  | error e t => rfl

/-- Two sequences of steps come to the same if the steps do wherever the first ones keep something. -/
theorem forM_congr_of_keeps {P : σ → Prop} {l : List α} {f f' : α → EStateM ε σ PUnit} (hs : P s)
    (hsame : ∀ a ∈ l, ∀ t, P t → f a t = f' a t)
    (hf : ∀ a ∈ l, ∀ t u t', P t → f a t = .ok u t' → P t') : l.forM f s = l.forM f' s := by
  induction l generalizing s with
  | nil => rfl
  | cons a l ih =>
    have hrest : ∀ u t, f a s = .ok u t → l.forM f t = l.forM f' t := fun u t hstep =>
      ih (hf a List.mem_cons_self s u t hs hstep) (fun b hb => hsame b (List.mem_cons_of_mem a hb))
        fun b hb => hf b (List.mem_cons_of_mem a hb)
    have hfirst := hsame a List.mem_cons_self s hs
    calc (f a >>= fun _ => l.forM f) s = (f a >>= fun _ => l.forM f') s := bind_congr_of_ok hrest
      _ = (f' a >>= fun _ => l.forM f') s := by
        change EStateM.bind (f a) _ s = EStateM.bind (f' a) _ s
        rw [EStateM.bind, EStateM.bind, hfirst]

/-- The state that a step ends in, also when it fails. -/
def left : EStateM.Result ε σ α → σ
  | .ok _ s => s
  | .error _ s => s

/-- Wherever it starts, the step ends in a related state. -/
def Moves (R : σ → σ → Prop) (x : EStateM ε σ α) : Prop := ∀ s, R s (left (x s))

variable {R : σ → σ → Prop}

/-- A step that comes to an end has moved the state. -/
theorem Moves.of_ok {x : EStateM ε σ α} (h : Moves R x) {a : α} (hx : x s = .ok a s') :
    R s s' := by
  have hr := h s
  rwa [hx] at hr

/-- A state that is moved in one way is moved in any way that follows. -/
theorem Moves.mono {Q : σ → σ → Prop} {x : EStateM ε σ α} (h : Moves R x)
    (hq : ∀ s s', R s s' → Q s s') : Moves Q x := fun s => hq _ _ (h s)

theorem Moves.modify {f : σ → σ} (h : ∀ s, R s (f s)) :
    Moves R (modify f : EStateM ε σ PUnit) := h

theorem Moves.pure [Std.Refl R] (a : α) : Moves R (pure a : EStateM ε σ α) := fun s => refl_of R s

theorem Moves.throw [Std.Refl R] (e : ε) : Moves R (throw e : EStateM ε σ α) := fun s => refl_of R s

theorem Moves.get [Std.Refl R] : Moves R (get : EStateM ε σ σ) := fun s => refl_of R s

/-- Steps one behind the other move the state as each of them does. -/
theorem Moves.bind [IsTrans σ R] {x : EStateM ε σ α} {f : α → EStateM ε σ β} (hx : Moves R x)
    (hf : ∀ a, Moves R (f a)) : Moves R (x >>= f) := by
  intro s
  have hs := hx s
  change R s (left (EStateM.bind x f s))
  unfold EStateM.bind
  cases h : x s with
  | ok a t =>
    rw [h] at hs
    exact trans_of R hs (hf a t)
  | error e t =>
    rw [h] at hs
    exact hs

/-- A property that a step does not end. -/
def Keeps (P : σ → Prop) (s s' : σ) : Prop := P s → P s'

instance (P : σ → Prop) : Std.Refl (Keeps P) := ⟨fun _ => id⟩

instance (P : σ → Prop) : IsTrans σ (Keeps P) := ⟨fun _ _ _ h h' hp => h' (h hp)⟩

section Preorder

variable [Std.Refl R] [IsTrans σ R]

/-- A step that is taken for all elements of a list moves the state as it does for one of them. -/
theorem Moves.forM {l : List α} {f : α → EStateM ε σ PUnit} (hf : ∀ a ∈ l, Moves R (f a)) :
    Moves R (l.forM f) := by
  induction l with
  | nil => exact .pure _
  | cons a l ih =>
    change Moves R (f a >>= fun _ => l.forM f)
    exact (hf a (by simp)).bind fun _ => ih fun b hb => hf b (List.mem_cons_of_mem a hb)

/-- A step with a result for each element of a list moves the state as it does for one of them. -/
theorem Moves.mapM {l : List α} {f : α → EStateM ε σ β} (hf : ∀ a ∈ l, Moves R (f a)) :
    Moves R (l.mapM f) := by
  induction l with
  | nil => exact .pure _
  | cons a l ih =>
    rw [List.mapM_cons]
    refine (hf a (by simp)).bind fun b => ?_
    exact (ih fun c hc => hf c (List.mem_cons_of_mem a hc)).bind fun _ => .pure _

/-- A step that goes on from its last result moves the state as it does for one of the elements. -/
theorem Moves.foldlM {l : List α} {f : β → α → EStateM ε σ β}
    (hf : ∀ b, ∀ a ∈ l, Moves R (f b a)) (b : β) : Moves R (l.foldlM f b) := by
  induction l generalizing b with
  | nil => exact .pure _
  | cons a l ih =>
    rw [List.foldlM_cons]
    exact (hf b a (by simp)).bind fun c => ih (fun d e he => hf d e (List.mem_cons_of_mem a he)) c

/-- The results of a step that is taken for each element of a list stand in the order of the
elements, and each was reached from a state related to the first one. -/
theorem forall₂_of_mapM {l : List α} {f : α → EStateM ε σ β} (hf : ∀ a ∈ l, Moves R (f a))
    {bs : List β} (h : l.mapM f s = .ok bs s') :
    List.Forall₂ (fun a b => ∃ t t', R s t ∧ f a t = .ok b t') l bs := by
  induction l generalizing s bs with
  | nil =>
    obtain ⟨rfl, -⟩ := pure_eq_ok.mp h
    exact .nil
  | cons a l ih =>
    rw [List.mapM_cons] at h
    obtain ⟨b, t, hb, h⟩ := bind_eq_ok.mp h
    obtain ⟨cs, t', hcs, h⟩ := bind_eq_ok.mp h
    obtain ⟨rfl, rfl⟩ := pure_eq_ok.mp h
    have hst : R s t := (hf a (by simp)).of_ok hb
    refine .cons ⟨s, t, refl_of R s, hb⟩ ?_
    refine (ih (fun c hc => hf c (List.mem_cons_of_mem a hc)) hcs).imp ?_
    rintro c d ⟨u, u', hu, hd⟩
    exact ⟨u, u', trans_of R hst hu, hd⟩

/-- Each step of a sequence was taken between states that are related to the first and the
last one. -/
theorem exists_of_forM {l : List α} {f : α → EStateM ε σ PUnit} (hf : ∀ a ∈ l, Moves R (f a))
    {u : PUnit} (h : l.forM f s = .ok u s') {a : α} (ha : a ∈ l) :
    ∃ t v t', R s t ∧ f a t = .ok v t' ∧ R t' s' := by
  induction l generalizing s with
  | nil => simp at ha
  | cons b l ih =>
    obtain ⟨v, t, hb, hl⟩ := bind_eq_ok.mp h
    have hrest : ∀ c ∈ l, Moves R (f c) := fun c hc => hf c (List.mem_cons_of_mem b hc)
    rcases List.mem_cons.mp ha with rfl | ha
    · exact ⟨s, v, t, refl_of R s, hb, (Moves.forM hrest).of_ok hl⟩
    · obtain ⟨w, v', t', hw, hstep, hlast⟩ := ih hrest hl ha
      exact ⟨w, v', t', trans_of R ((hf b (by simp)).of_ok hb) hw, hstep, hlast⟩

end Preorder

/-- Wherever it starts, a step that cannot fail ends in a related state. -/
def Shifts (R : σ → σ → Prop) (x : StateM σ α) : Prop := ∀ s, R s (x s).2

theorem Shifts.pure [Std.Refl R] (a : α) : Shifts R (pure a : StateM σ α) := fun s => refl_of R s

theorem Shifts.get [Std.Refl R] : Shifts R (get : StateM σ σ) := fun s => refl_of R s

/-- Steps that cannot fail, one behind the other, shift the state as each of them does. -/
theorem Shifts.bind [IsTrans σ R] {x : StateM σ α} {f : α → StateM σ β} (hx : Shifts R x)
    (hf : ∀ a, Shifts R (f a)) : Shifts R (x >>= f) := fun s =>
  trans_of R (hx s) (hf (x s).1 (x s).2)

/-- A step that cannot fail shifts the state for all elements of a list as it does for one of them. -/
theorem Shifts.mapM [Std.Refl R] [IsTrans σ R] {l : List α} {f : α → StateM σ β}
    (hf : ∀ a ∈ l, Shifts R (f a)) : Shifts R (l.mapM f) := by
  induction l with
  | nil => exact .pure _
  | cons a l ih =>
    rw [List.mapM_cons]
    refine (hf a (by simp)).bind fun b => ?_
    exact (ih fun c hc => hf c (List.mem_cons_of_mem a hc)).bind fun _ => .pure _

end Pipework.Step
