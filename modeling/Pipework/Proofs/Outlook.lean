import Pipework.Proofs.Shape

/-!
# What a name leads to

A name is looked for among the scopes in a scope, then going outwards among those that are met on the
way, and then level by level inside those around it. The scopes of a level are looked at by the ways
that lead down to them: what comes first is decided where two ways part, by which of the two scopes
there is the older one, and not by which of the two scopes at their ends is. From the scope so found
the further names lead down as far as they can.
-/

namespace Pipework

open Step

namespace Forest

/-- The scopes in a scope are listed in the order of their creation. -/
def Rising (f : Forest) : Prop := ∀ id, (f.children id).Pairwise (· < ·)

/-- One scope lies in another one and has this name. -/
def IsChild (f : Forest) (parent : ScopeId) (name : String) (id : ScopeId) : Prop :=
  f.parent? id = some parent ∧ f.name? id = some name

/-- The scope that lies so many steps outwards. -/
def outwards? (f : Forest) : Nat → ScopeId → Option ScopeId
  | 0, id => some id
  | steps + 1, id => (f.parent? id).bind (f.outwards? steps)

/-- The scope that is met on the way outwards: the one that the way comes by, if it lies in another
one and has the name, and otherwise one in it that has the name. -/
inductive Meets (f : Forest) (name : String) (above : ScopeId) : ScopeId → Prop
  | itself (hinside : (f.parent? above).isSome) (hname : f.name? above = some name) :
    Meets f name above above
  | child {id : ScopeId} (hno : ¬ ((f.parent? above).isSome ∧ f.name? above = some name))
    (h : f.IsChild above name id) : Meets f name above id

/-- The scopes on the way from a scope, which is not counted, down to one inside it. -/
inductive WayDown (f : Forest) (top : ScopeId) : List ScopeId → ScopeId → Prop
  | child {id : ScopeId} (h : f.parent? id = some top) : WayDown f top [id] id
  | further {line : List ScopeId} {above id : ScopeId} (hway : WayDown f top line above)
    (h : f.parent? id = some above) : WayDown f top (line ++ [id]) id

/-- Where the two ways part, the first one goes by the older scope. -/
def PartsFirst (line line' : List ScopeId) : Prop :=
  ∃ common a b rest rest', line = common ++ a :: rest ∧ line' = common ++ b :: rest' ∧ a < b

/-- The first way is shorter, or as long and goes by the older scope where the two part. -/
def LevelOrder (line line' : List ScopeId) : Prop :=
  line.length < line'.length ∨ line.length = line'.length ∧ PartsFirst line line'

/-- The first way is shorter, or as long and ends at the older scope. -/
def CreationOrder (line line' : List ScopeId) : Prop :=
  line.length < line'.length ∨ line.length = line'.length ∧ line.getLastD root < line'.getLastD root

/-- Some scope inside another one has the name. -/
def HasInside (f : Forest) (top : ScopeId) (name : String) : Prop :=
  ∃ line id, f.WayDown top line id ∧ f.name? id = some name

/-- The scope of this name inside another one to which the way down comes before those to all
others. -/
def FirstInside (f : Forest) (before : List ScopeId → List ScopeId → Prop) (top : ScopeId)
    (name : String) (id : ScopeId) : Prop :=
  f.name? id = some name ∧ ∃ line, f.WayDown top line id ∧ ∀ line' other, f.WayDown top line' other →
    f.name? other = some name → other ≠ id → before line line'

/-- What a name leads to from a scope, given which ways down come before which. -/
inductive Anchored (f : Forest) (before : List ScopeId → List ScopeId → Prop) (start : ScopeId)
    (name : String) : Option ScopeId → Prop
  /-- A scope in the one it is looked for from. -/
  | child {id : ScopeId} (h : f.IsChild start name id) : Anchored f before start name (some id)
  /-- Else what is met first on the way outwards. -/
  | outwards {steps : Nat} {above id : ScopeId} (hno : ∀ other, ¬ f.IsChild start name other)
    (habove : f.outwards? steps start = some above) (hmeets : f.Meets name above id)
    (hleast : ∀ fewer < steps, ∀ nearer, f.outwards? fewer start = some nearer →
      ∀ other, ¬ f.Meets name nearer other) : Anchored f before start name (some id)
  /-- Else what comes first inside the nearest scope around it that has something of the name inside,
  or inside itself if there is nothing around it. -/
  | inside {steps : Nat} {above id : ScopeId}
    (hno : ∀ steps nearer, f.outwards? steps start = some nearer → ∀ other, ¬ f.Meets name nearer other)
    (habove : f.outwards? steps ((f.parent? start).getD start) = some above)
    (hfirst : f.FirstInside before above name id)
    (hleast : ∀ fewer < steps, ∀ nearer,
      f.outwards? fewer ((f.parent? start).getD start) = some nearer → ¬ f.HasInside nearer name) :
    Anchored f before start name (some id)
  /-- Nothing, if the outermost scope around it has nothing of the name inside. -/
  | nowhere (hno : ∀ steps top, f.outwards? steps start = some top → f.parent? top = none →
      ¬ f.HasInside top name) : Anchored f before start name none

/-- Going down by these names leads from the one scope to the other. -/
inductive DownBy (f : Forest) : ScopeId → List String → ScopeId → Prop
  | here {id : ScopeId} : DownBy f id [] id
  | child {id next last : ScopeId} {name : String} {rest : List String} (h : f.IsChild id name next)
    (hrest : DownBy f next rest last) : DownBy f id (name :: rest) last

/-- A way down has at least one step. -/
theorem WayDown.length_pos {f : Forest} {top id : ScopeId} {line : List ScopeId}
    (h : f.WayDown top line id) : 0 < line.length := by
  cases h <;> simp

/-- A way down ends in a scope that there is. -/
theorem WayDown.lt_size {f : Forest} {top id : ScopeId} {line : List ScopeId}
    (h : f.WayDown top line id) : id < f.size := by
  cases h with
  | child hparent => exact lt_size_of_parent? hparent
  | further _ hparent => exact lt_size_of_parent? hparent

section Ways

variable {f : Forest} (h : f.Shapely)

include h

/-- What is found under a name in a scope is the scope of this name in it. -/
theorem Shapely.child?_eq_some {parent id : ScopeId} {name : String} :
    f.child? parent name = some id ↔ f.IsChild parent name id := by
  constructor
  · intro hchild
    obtain ⟨hmem, hname⟩ := mem_of_child? hchild
    exact ⟨(h.linked id parent).mp hmem, hname⟩
  · rintro ⟨hparent, hname⟩
    have hmem := (h.linked id parent).mpr hparent
    cases hchild : f.child? parent name with
    | none => exact absurd hname (ne_of_child?_eq_none hchild hmem)
    | some other =>
      obtain ⟨hother, hsame⟩ := mem_of_child? hchild
      rw [List.inj_on_of_nodup_map (h.names parent) hother hmem (hsame.trans hname.symm)]

/-- Nothing is found under a name just if no scope in the scope has it. -/
theorem Shapely.child?_eq_none {parent : ScopeId} {name : String} :
    f.child? parent name = none ↔ ∀ id, ¬ f.IsChild parent name id := by
  simp only [Option.eq_none_iff_forall_ne_some, ne_eq, h.child?_eq_some]

/-- What is found at one step outwards is what is met there. -/
theorem Shapely.findAt?_eq_some {above id : ScopeId} {name : String} :
    f.findAt? name above = some id ↔ f.Meets name above id := by
  simp only [findAt?, Bool.and_eq_true, beq_iff_eq]
  by_cases hself : (f.parent? above).isSome ∧ f.name? above = some name
  · rw [if_pos hself]
    constructor
    · rintro ⟨⟩
      exact .itself hself.1 hself.2
    · rintro (⟨-, -⟩ | ⟨hno, -⟩)
      · rfl
      · exact absurd hself hno
  · rw [if_neg hself, h.child?_eq_some]
    constructor
    · exact fun hchild => .child hself hchild
    · rintro (⟨hinside, hname⟩ | ⟨-, hchild⟩)
      · exact absurd ⟨hinside, hname⟩ hself
      · exact hchild

/-- Nothing is found at one step outwards just if nothing is met there. -/
theorem Shapely.findAt?_eq_none {above : ScopeId} {name : String} :
    f.findAt? name above = none ↔ ∀ id, ¬ f.Meets name above id := by
  simp only [Option.eq_none_iff_forall_ne_some, ne_eq, h.findAt?_eq_some]

/-- The way outwards comes by the scopes that lie so many steps outwards. -/
theorem Shapely.getElem?_chain (steps : Nat) (id : ScopeId) :
    (f.chain id)[steps]? = f.outwards? steps id := by
  have hsteps : ∀ limit id steps, id ≤ limit →
      (f.chainWithin limit id)[steps]? = f.outwards? steps id := by
    intro limit
    induction limit with
    | zero =>
      intro id steps hid
      obtain rfl : id = root := Nat.le_zero.mp hid
      cases steps with
      | zero => rfl
      | succ steps => rw [outwards?, h.top]; rfl
    | succ limit ih =>
      intro id steps hid
      rw [chainWithin]
      cases habove : f.parent? id with
      | none =>
        cases steps with
        | zero => rfl
        | succ steps => rw [outwards?, habove]; rfl
      | some above =>
        have hlt := h.older id above habove
        cases steps with
        | zero => rfl
        | succ steps =>
          rw [outwards?, habove, Option.bind_some]
          exact ih above steps (Nat.le_of_lt_succ (hlt.trans_le hid))
  exact hsteps id id steps le_rfl

/-- What is found first on the way outwards is found so many steps outwards, and nearer there is nothing. -/
theorem Shapely.findSome?_chain_eq_some {start id : ScopeId} {find : ScopeId → Option ScopeId}
    (hfind : (f.chain start).findSome? find = some id) : ∃ steps above,
      f.outwards? steps start = some above ∧ find above = some id ∧
      ∀ fewer < steps, ∀ nearer, f.outwards? fewer start = some nearer → find nearer = none := by
  obtain ⟨before, above, behind, hsplit, hfound, hno⟩ := List.findSome?_eq_some_iff.mp hfind
  refine ⟨before.length, above, ?_, hfound, fun fewer hfewer nearer hnearer => ?_⟩
  · rw [← h.getElem?_chain, hsplit, List.getElem?_append_right le_rfl, Nat.sub_self]
    rfl
  · rw [← h.getElem?_chain, hsplit, List.getElem?_append_left hfewer] at hnearer
    exact hno nearer (List.mem_of_getElem? hnearer)

/-- Nothing is found on the way outwards just if nothing is at any step. -/
theorem Shapely.findSome?_chain_eq_none {start : ScopeId} {find : ScopeId → Option ScopeId} :
    (f.chain start).findSome? find = none ↔
      ∀ steps above, f.outwards? steps start = some above → find above = none := by
  rw [List.findSome?_eq_none_iff]
  constructor
  · intro hno steps above habove
    rw [← h.getElem?_chain] at habove
    exact hno above (List.mem_of_getElem? habove)
  · intro hno above habove
    obtain ⟨steps, hsteps⟩ := List.mem_iff_getElem?.mp habove
    exact hno steps above (h.getElem?_chain steps start ▸ hsteps)

/-- Scopes further down were created later. -/
theorem Shapely.add_length_le {top id : ScopeId} {line : List ScopeId} (hway : f.WayDown top line id) :
    top + line.length ≤ id := by
  induction hway with
  | child hparent => exact h.older _ _ hparent
  | further _ hparent ih =>
    rw [List.length_append, List.length_singleton]
    exact (Nat.succ_le_succ ih).trans (h.older _ _ hparent)

/-- A way down leads to younger scopes. -/
theorem Shapely.lt_of_wayDown {top id : ScopeId} {line : List ScopeId} (hway : f.WayDown top line id) :
    top < id := by
  exact (Nat.lt_add_of_pos_right hway.length_pos).trans_le (h.add_length_le hway)

/-- There is one way down. -/
theorem Shapely.wayDown_unique {top id : ScopeId} {line line' : List ScopeId}
    (hway : f.WayDown top line id) (hway' : f.WayDown top line' id) : line = line' := by
  induction hway generalizing line' with
  | child hparent =>
    cases hway' with
    | child _ => rfl
    | further hway hparent' =>
      obtain rfl := Option.some.inj (hparent.symm.trans hparent')
      exact absurd (h.lt_of_wayDown hway) (Nat.lt_irrefl _)
  | further hway hparent ih =>
    cases hway' with
    | child hparent' =>
      obtain rfl := Option.some.inj (hparent.symm.trans hparent')
      exact absurd (h.lt_of_wayDown hway) (Nat.lt_irrefl _)
    | further hway' hparent' =>
      obtain rfl := Option.some.inj (hparent.symm.trans hparent')
      rw [ih hway']

end Ways

/-- Two ways that part stay in order however they go on. -/
theorem PartsFirst.append {line line' : List ScopeId} (h : PartsFirst line line')
    (more more' : List ScopeId) : PartsFirst (line ++ more) (line' ++ more') := by
  obtain ⟨common, a, b, rest, rest', rfl, rfl, hlt⟩ := h
  exact ⟨common, a, b, rest ++ more, rest' ++ more', by simp, by simp, hlt⟩

/-! ### Level by level -/

/-- The scopes that lie so deep inside another one, in the order in which the ways down to them part.
-/
structure Level (f : Forest) (top : ScopeId) (depth : Nat) (scopes : List ScopeId) : Prop where
  /-- They are all that lie so deep. -/
  mem : ∀ id, id ∈ scopes ↔ ∃ line, f.WayDown top line id ∧ line.length = depth + 1
  /-- The ways to those further ahead go by older scopes. -/
  sorted : scopes.Pairwise fun a b => ∀ line line', f.WayDown top line a → f.WayDown top line' b →
    PartsFirst line line'

section Levels

variable {f : Forest} (h : f.Shapely) (hrising : f.Rising)

include h hrising

/-- The scopes in a scope are the first level below it. -/
theorem level_children (top : ScopeId) : f.Level top 0 (f.children top) where
  mem id := by
    rw [h.linked]
    constructor
    · exact fun hparent => ⟨[id], .child hparent, rfl⟩
    · rintro ⟨line, hway, hlength⟩
      cases hway with
      | child hparent => exact hparent
      | further hway _ =>
        have hpos := hway.length_pos
        rw [List.length_append, List.length_singleton] at hlength
        omega
  sorted := by
    refine (hrising top).imp_of_mem fun {a b} ha hb hlt line line' hway hway' => ?_
    obtain rfl := h.wayDown_unique hway (.child ((h.linked a top).mp ha))
    obtain rfl := h.wayDown_unique hway' (.child ((h.linked b top).mp hb))
    exact ⟨[], a, b, [], [], rfl, rfl, hlt⟩

/-- What lies in the scopes of a level is the next one. -/
theorem Level.next {top : ScopeId} {depth : Nat} {scopes : List ScopeId}
    (hlevel : f.Level top depth scopes) : f.Level top (depth + 1) (scopes.flatMap f.children) where
  mem id := by
    rw [List.mem_flatMap]
    constructor
    · rintro ⟨above, habove, hid⟩
      obtain ⟨line, hway, hlength⟩ := (hlevel.mem above).mp habove
      exact ⟨line ++ [id], .further hway ((h.linked id above).mp hid), by simp [hlength]⟩
    · rintro ⟨line, hway, hlength⟩
      cases hway with
      | child _ => simp at hlength
      | @further line above _ hway hparent =>
        refine ⟨above, (hlevel.mem above).mpr ⟨line, hway, ?_⟩, (h.linked id above).mpr hparent⟩
        simpa using hlength
  sorted := by
    have hextend : ∀ {above child : ScopeId}, above ∈ scopes → child ∈ f.children above →
        ∃ line, f.WayDown top line above ∧ f.WayDown top (line ++ [child]) child := by
      intro above child habove hchild
      obtain ⟨line, hway, -⟩ := (hlevel.mem above).mp habove
      exact ⟨line, hway, .further hway ((h.linked child above).mp hchild)⟩
    refine List.pairwise_flatMap.mpr ⟨fun above habove => ?_, ?_⟩
    · refine (hrising above).imp_of_mem fun {a b} ha hb hlt line line' hway hway' => ?_
      obtain ⟨common, hcommon, ha⟩ := hextend habove ha
      obtain ⟨common', hcommon', hb⟩ := hextend habove hb
      obtain rfl := h.wayDown_unique hcommon hcommon'
      obtain rfl := h.wayDown_unique hway ha
      obtain rfl := h.wayDown_unique hway' hb
      exact ⟨common, a, b, [], [], rfl, rfl, hlt⟩
    · refine hlevel.sorted.imp_of_mem fun {above above'} habove habove' hparts => ?_
      intro a ha b hb line line' hway hway'
      obtain ⟨line₁, hline₁, ha⟩ := hextend habove ha
      obtain ⟨line₂, hline₂, hb⟩ := hextend habove' hb
      obtain rfl := h.wayDown_unique hway ha
      obtain rfl := h.wayDown_unique hway' hb
      exact (hparts line₁ line₂ hline₁ hline₂).append _ _

/-- What is found from a level inwards comes before all else of the name from there inwards. -/
theorem Level.of_findWithin_eq_some {top id : ScopeId} {name : String} {levels depth : Nat}
    {scopes : List ScopeId} (hlevel : f.Level top depth scopes)
    (hfind : f.findWithin name levels scopes = some id) :
    f.name? id = some name ∧ ∃ line, f.WayDown top line id ∧ depth < line.length ∧
      ∀ line' other, f.WayDown top line' other → depth < line'.length → f.name? other = some name →
        other ≠ id → LevelOrder line line' := by
  induction levels generalizing depth scopes with
  | zero => cases hfind
  | succ levels ih =>
    rw [findWithin, Option.or_eq_some_iff] at hfind
    rcases hfind with hfind | ⟨hnone, hfind⟩
    · obtain ⟨hname, before, behind, rfl, hbefore⟩ := List.find?_eq_some_iff_append.mp hfind
      obtain ⟨line, hway, hlength⟩ := (hlevel.mem id).mp (by simp)
      refine ⟨by simpa using hname, line, hway, by omega, ?_⟩
      intro line' other hother hdeep hsame hne
      rcases Nat.lt_or_ge (depth + 1) line'.length with hlt | hge
      · exact .inl (hlength ▸ hlt)
      -- Of the same level, only those behind it can have the name.
      have hequal : line'.length = depth + 1 := by omega
      have hmem := (hlevel.mem other).mpr ⟨line', hother, hequal⟩
      rw [List.mem_append, List.mem_cons] at hmem
      have hbehind : other ∈ behind := by
        rcases hmem with hmem | heq | hmem
        · simpa [hsame] using hbefore other hmem
        · exact absurd heq hne
        · exact hmem
      have hsorted := (List.pairwise_cons.mp (List.pairwise_append.mp hlevel.sorted).2.1).1
      exact .inr ⟨hlength.trans hequal.symm, hsorted other hbehind line line' hway hother⟩
    · obtain ⟨hname, line, hway, hdeep, hfirst⟩ := ih (hlevel.next h hrising) hfind
      refine ⟨hname, line, hway, by omega, fun line' other hother hdeep' hsame hne => ?_⟩
      rcases Nat.lt_or_ge (depth + 1) line'.length with hlt | hge
      · exact hfirst line' other hother hlt hsame hne
      · have hmem := (hlevel.mem other).mpr ⟨line', hother, by omega⟩
        have hno := List.find?_eq_none.mp hnone other hmem
        simp [hsame] at hno

/-- What is not found in so many levels from one inwards is not there. -/
theorem Level.of_findWithin_eq_none {top : ScopeId} {name : String} {levels depth : Nat}
    {scopes : List ScopeId} (hlevel : f.Level top depth scopes)
    (hfind : f.findWithin name levels scopes = none) {line : List ScopeId} {id : ScopeId}
    (hway : f.WayDown top line id) (hdeep : depth < line.length)
    (hreach : line.length ≤ depth + levels) : f.name? id ≠ some name := by
  induction levels generalizing depth scopes with
  | zero => omega
  | succ levels ih =>
    rw [findWithin, Option.or_eq_none_iff] at hfind
    rcases Nat.lt_or_ge (depth + 1) line.length with hlt | hge
    · exact ih (hlevel.next h hrising) hfind.2 hlt (by omega)
    · have hmem := (hlevel.mem id).mpr ⟨line, hway, by omega⟩
      simpa using List.find?_eq_none.mp hfind.1 id hmem

/-- What is found below a scope is the first scope of the name inside it, level by level. -/
theorem firstInside_of_findBelow? {top id : ScopeId} {name : String}
    (hfind : f.findBelow? top name = some id) : f.FirstInside LevelOrder top name id := by
  obtain ⟨hname, line, hway, -, hfirst⟩ :=
    (level_children h hrising top).of_findWithin_eq_some h hrising hfind
  exact ⟨hname, line, hway, fun line' other hother =>
    hfirst line' other hother hother.length_pos⟩

/-- Nothing is found below a scope just if no scope inside it has the name. -/
theorem findBelow?_eq_none {top : ScopeId} {name : String} :
    f.findBelow? top name = none ↔ ¬ f.HasInside top name := by
  constructor
  · rintro hfind ⟨line, id, hway, hname⟩
    have hreach : line.length ≤ 0 + f.size := by
      rw [Nat.zero_add]
      exact (Nat.le_add_left _ top).trans ((h.add_length_le hway).trans hway.lt_size.le)
    exact (level_children h hrising top).of_findWithin_eq_none h hrising hfind hway hway.length_pos
      hreach hname
  · intro hno
    refine Option.eq_none_iff_forall_ne_some.mpr fun id hfind => hno ?_
    obtain ⟨hname, line, hway, -⟩ := firstInside_of_findBelow? h hrising hfind
    exact ⟨line, id, hway, hname⟩

end Levels

/-! ### Anchors -/

/-- The scope itself, or one inside it. -/
def Within (f : Forest) (top id : ScopeId) : Prop := id = top ∨ ∃ line, f.WayDown top line id

section Outermost

variable {f : Forest}

/-- A way down from a scope inside another one goes on from a way down to it. -/
theorem Within.exists_wayDown {top above id : ScopeId} {line : List ScopeId} (habove : f.Within top above)
    (hway : f.WayDown above line id) : ∃ line', f.WayDown top line' id := by
  induction hway with
  | child hparent =>
    rcases habove with rfl | ⟨line, hline⟩
    · exact ⟨_, .child hparent⟩
    · exact ⟨_, .further hline hparent⟩
  | further _ hparent ih =>
    obtain ⟨line, hline⟩ := ih
    exact ⟨_, .further hline hparent⟩

/-- Nothing else lies outwards from a scope with nothing around it. -/
theorem eq_of_outwards? {top above : ScopeId} {steps : Nat} (htop : f.parent? top = none)
    (h : f.outwards? steps top = some above) : above = top := by
  cases steps with
  | zero => exact (Option.some.inj h).symm
  | succ steps =>
    rw [outwards?, htop] at h
    cases h

/-- All that lies outwards lies within the outermost scope. -/
theorem within_of_outwards? {start top above : ScopeId} {steps steps' : Nat}
    (htop : f.outwards? steps start = some top) (hlast : f.parent? top = none)
    (habove : f.outwards? steps' start = some above) : f.Within top above := by
  induction steps generalizing start steps' above with
  | zero =>
    obtain rfl := Option.some.inj htop
    exact .inl (eq_of_outwards? hlast habove)
  | succ steps ih =>
    obtain ⟨parent, hparent, htop⟩ := Option.bind_eq_some_iff.mp htop
    cases steps' with
    | zero =>
      obtain rfl := Option.some.inj habove
      have hwithin : f.Within top parent := @ih parent parent 0 htop rfl
      exact .inr (hwithin.exists_wayDown (.child hparent))
    | succ steps' =>
      rw [outwards?, hparent, Option.bind_some] at habove
      exact ih htop habove

/-- What is met outwards lies inside the outermost scope. -/
theorem Meets.exists_wayDown {top above id : ScopeId} {name : String} (hmeets : f.Meets name above id)
    (hwithin : f.Within top above) (hlast : f.parent? top = none) :
    f.name? id = some name ∧ ∃ line, f.WayDown top line id := by
  cases hmeets with
  | itself hinside hname =>
    refine ⟨hname, hwithin.resolve_left fun heq => ?_⟩
    rw [heq, hlast] at hinside
    cases hinside
  | child _ hchild => exact ⟨hchild.2, hwithin.exists_wayDown (.child hchild.1)⟩

/-- The scopes around a scope lie outwards from it. -/
theorem exists_outwards? {start above : ScopeId} {steps : Nat}
    (habove : f.outwards? steps ((f.parent? start).getD start) = some above) :
    ∃ steps', f.outwards? steps' start = some above := by
  cases hparent : f.parent? start with
  | none => exact ⟨steps, by simpa [hparent] using habove⟩
  | some parent => exact ⟨steps + 1, by simpa [outwards?, hparent] using habove⟩

end Outermost

section Anchors

variable {f : Forest} (h : f.Shapely)

include h

/-- Going outwards one comes to a scope with nothing around it. -/
theorem Shapely.exists_outermost (start : ScopeId) :
    ∃ steps top, f.outwards? steps start = some top ∧ f.parent? top = none := by
  obtain ⟨top, hlast, htop⟩ := h.exists_end start
  obtain ⟨steps, hsteps⟩ := List.mem_iff_getElem?.mp (List.mem_of_getLast? hlast)
  exact ⟨steps, top, h.getElem?_chain steps start ▸ hsteps, htop⟩

variable (hrising : f.Rising)

include hrising

/-- A name leads to nothing just if nothing inside the outermost scope has it. -/
theorem anchor?_eq_none {start : ScopeId} {name : String} : f.anchor? start name = none ↔
    ∀ steps top, f.outwards? steps start = some top → f.parent? top = none → ¬ f.HasInside top name := by
  rw [anchor?, Option.or_eq_none_iff, Option.or_eq_none_iff, h.findSome?_chain_eq_none,
    h.findSome?_chain_eq_none, h.child?_eq_none]
  constructor
  · rintro ⟨-, hno⟩ steps top htop hlast
    rw [← findBelow?_eq_none h hrising]
    cases hparent : f.parent? start with
    | none => exact hno steps top (by simpa [hparent] using htop)
    | some parent =>
      cases steps with
      | zero =>
        obtain rfl := Option.some.inj htop
        rw [hparent] at hlast
        cases hlast
      | succ steps => exact hno steps top (by simpa [outwards?, hparent] using htop)
  · intro hno
    obtain ⟨steps, top, htop, hlast⟩ := h.exists_outermost start
    have hnone := hno steps top htop hlast
    refine ⟨⟨fun id hchild => ?_, fun steps' above habove => ?_⟩, fun steps' above habove => ?_⟩
    · have hwithin := @within_of_outwards? f start top start steps 0 htop hlast rfl
      obtain ⟨line, hway⟩ := hwithin.exists_wayDown (.child hchild.1)
      exact hnone ⟨line, id, hway, hchild.2⟩
    · refine h.findAt?_eq_none.mpr fun id hmeets => ?_
      obtain ⟨hname, line, hway⟩ :=
        hmeets.exists_wayDown (within_of_outwards? htop hlast habove) hlast
      exact hnone ⟨line, id, hway, hname⟩
    · refine (findBelow?_eq_none h hrising).mpr ?_
      rintro ⟨line, id, hway, hname⟩
      obtain ⟨steps'', hstart⟩ := exists_outwards? habove
      obtain ⟨line', hway'⟩ := (within_of_outwards? htop hlast hstart).exists_wayDown hway
      exact hnone ⟨line', id, hway', hname⟩

/-- What a name in a reference leads to is what stands first by levels. -/
theorem anchored_anchor? (start : ScopeId) (name : String) :
    f.Anchored LevelOrder start name (f.anchor? start name) := by
  cases hanchor : f.anchor? start name with
  | none => exact .nowhere ((anchor?_eq_none h hrising).mp hanchor)
  | some id =>
    rw [anchor?, Option.or_eq_some_iff, Option.or_eq_some_iff, Option.or_eq_none_iff] at hanchor
    rcases hanchor with (hchild | ⟨hno, hmet⟩) | ⟨⟨-, hno⟩, hinside⟩
    · exact .child (h.child?_eq_some.mp hchild)
    · obtain ⟨steps, above, habove, hfound, hleast⟩ := h.findSome?_chain_eq_some hmet
      exact .outwards (h.child?_eq_none.mp hno) habove (h.findAt?_eq_some.mp hfound)
        fun fewer hfewer nearer hnearer => h.findAt?_eq_none.mp (hleast fewer hfewer nearer hnearer)
    · obtain ⟨steps, above, habove, hfound, hleast⟩ := h.findSome?_chain_eq_some hinside
      refine .inside (fun steps nearer hnearer => ?_) habove
        (firstInside_of_findBelow? h hrising hfound) fun fewer hfewer nearer hnearer => ?_
      · exact h.findAt?_eq_none.mp (h.findSome?_chain_eq_none.mp hno steps nearer hnearer)
      · exact (findBelow?_eq_none h hrising).mp (hleast fewer hfewer nearer hnearer)

end Anchors

/-- Names lead down as far as there are scopes of these names. If some are left, a value is there for
them or else there is nothing. -/
theorem Shapely.descend?_eq {f : Forest} (h : f.Shapely) (start : ScopeId) (path : List String) :
    ∃ taken left last, path = taken ++ left ∧ f.DownBy start taken last ∧
      (∀ name ∈ left.head?, ∀ next, ¬ f.IsChild last name next) ∧
      f.descend? start path =
        if left = [] ∨ (f.raw? last).isSome then some (last, taken.length) else none := by
  induction path generalizing start with
  | nil => exact ⟨[], [], start, rfl, .here, nofun, rfl⟩
  | cons name rest ih =>
    rw [descend?]
    cases hchild : f.child? start name with
    | none =>
      refine ⟨[], name :: rest, start, rfl, .here, ?_, by simp⟩
      rintro _ ⟨⟩
      exact h.child?_eq_none.mp hchild
    | some next =>
      obtain ⟨taken, left, last, rfl, hdown, hno, hdescend⟩ := ih next
      refine ⟨name :: taken, left, last, rfl, .child (h.child?_eq_some.mp hchild) hdown, hno, ?_⟩
      dsimp only
      rw [hdescend]
      split <;> rfl

/-! ### Scopes are listed in the order of their creation -/

/-- A scope that is added is listed behind those that are older. -/
theorem Rising.addChild {f : Forest} (hrising : f.Rising) (h : f.Shapely) {parent : ScopeId}
    (hp : parent < f.size) (name : String) : (f.addChild parent name).Rising := by
  intro id
  rw [children_addChild hp]
  split
  · refine List.pairwise_append.mpr ⟨hrising id, List.pairwise_singleton _ _, fun child hc new hnew => ?_⟩
    rw [List.mem_singleton.mp hnew]
    exact h.lt_size hc
  · exact hrising id

/-- Taking a scope out leaves the order of the others. -/
theorem Rising.detach {f : Forest} (hrising : f.Rising) (parent target : ScopeId) :
    (f.detach parent target).Rising := by
  intro id
  rw [children_detach]
  split
  · exact (hrising id).filter _
  · exact hrising id

end Forest

namespace ScopeTree

open Forest

/-- No change that operations are made of spoils the shape, or the order of scopes. -/
theorem covers_rising :
    Covers (Keeps fun tree => tree.forest.Shapely ∧ tree.forest.Rising) where
  learn tree tree' h := by
    obtain ⟨memo, -, rfl⟩ := h
    exact id
  forget _ := id
  writeSource _ _ _ := id
  addChild tree parent name hp hempty hfresh h :=
    ⟨h.1.addChild hp hempty hfresh, h.2.addChild h.1 hp name⟩
  setEntry tree target entry hbare h :=
    ⟨h.1.setEntry hbare entry, fun id => children_setEntry tree.forest target entry id ▸ h.2 id⟩
  detach tree parent id name hchild h :=
    ⟨h.1.detach (mem_of_child? hchild).1, h.2.detach parent id⟩

/-- In any tree that comes of operations scopes are listed in the order of their creation. -/
theorem Reachable.rising {tree : ScopeTree} (h : Reachable tree) : tree.forest.Rising := by
  suffices hboth : tree.forest.Shapely ∧ tree.forest.Rising from hboth.2
  induction h with
  | start sources => exact ⟨shapely_initial, fun id => by cases id <;> exact .nil⟩
  | step _ operation ih => exact covers_rising.moves_run operation _ ih
  | outside _ sources ih => exact ih

/-- What a reference leads to in a tree, whatever was done with it. Its first name leads to a scope in
the one it stands in, else to what is met first on the way outwards, else to what comes first level by
level inside the nearest scope around it that has something of the name inside; and to nothing just if
there is nothing of the name inside the outermost scope. From there the other names lead down as far as
there are scopes of these names. If some are left, a value takes them, and without one the reference
leads to nothing. -/
theorem lookup_exact {tree : ScopeTree} (h : tree.Reachable) (start : ScopeId) (first : String)
    (rest : List String) :
    tree.forest.Anchored LevelOrder start first (tree.forest.anchor? start first) ∧
    (tree.forest.anchor? start first = none ↔ ∀ steps top,
      tree.forest.outwards? steps start = some top → tree.forest.parent? top = none →
        ¬ tree.forest.HasInside top first) ∧
    (tree.forest.anchor? start first = none → tree.forest.lookup? start (first :: rest) = none) ∧
    ∀ anchor, tree.forest.anchor? start first = some anchor → ∃ taken left last,
      rest = taken ++ left ∧ tree.forest.DownBy anchor taken last ∧
      (∀ name ∈ left.head?, ∀ next, ¬ tree.forest.IsChild last name next) ∧
      tree.forest.lookup? start (first :: rest) =
        if left = [] ∨ (tree.forest.raw? last).isSome then some (last, taken.length + 1) else none := by
  have hshapely := h.shapely
  refine ⟨anchored_anchor? hshapely h.rising start first, anchor?_eq_none hshapely h.rising,
    fun hnone => ?_, fun anchor hanchor => ?_⟩
  · rw [Forest.lookup?, hnone]
    rfl
  · obtain ⟨taken, left, last, hrest, hdown, hno, hdescend⟩ := hshapely.descend?_eq anchor rest
    refine ⟨taken, left, last, hrest, hdown, hno, ?_⟩
    change (tree.forest.anchor? start first).bind _ = _
    rw [hanchor, Option.bind_some, hdescend]
    split <;> rfl

/-- A chest and a box, a lamp in the box and another one in the chest, and then a shelf. -/
def attic : ScopeTree := Operation.runAll [.createChild 0 "chest", .createChild 0 "box",
  .put 2 "lamp" (.str "oil"), .put 1 "lamp" (.str "brass"), .createChild 0 "shelf"] .initial

/-- From the shelf a lamp is the one in the chest, and of rugs there are none. -/
theorem attic_is_searched : attic.Reachable ∧ attic.forest.Anchored LevelOrder 5 "lamp" (some 4) ∧
    (∃ taken left last, ["label"] = taken ++ left ∧ attic.forest.DownBy 4 taken last ∧
      (∀ name ∈ left.head?, ∀ next, ¬ attic.forest.IsChild last name next) ∧
      attic.forest.lookup? 5 ["lamp", "label"] =
        if left = [] ∨ (attic.forest.raw? last).isSome then some (last, taken.length + 1) else none) ∧
    attic.forest.lookup? 5 ["lamp", "label"] = some (4, 1) ∧
    attic.forest.lookup? 5 ["rug"] = none ∧ ¬ attic.forest.HasInside 0 "rug" := by
  have hreach : attic.Reachable := (Reachable.start []).runAll _
  have hlamp : attic.forest.anchor? 5 "lamp" = some 4 := by decide +kernel
  have hrug : attic.forest.anchor? 5 "rug" = none := by decide +kernel
  obtain ⟨hanchored, -, -, hlookup⟩ := lookup_exact hreach 5 "lamp" ["label"]
  obtain ⟨-, hnowhere, hnone, -⟩ := lookup_exact hreach 5 "rug" []
  exact ⟨hreach, hlamp ▸ hanchored, hlookup 4 hlamp, by decide +kernel, hnone hrug,
    hnowhere.mp hrug 1 0 (by decide +kernel) (by decide +kernel)⟩

/-- The lamp in the box was there before. -/
theorem older_lamp_is_passed_over : attic.Reachable ∧
    ¬ attic.forest.Anchored CreationOrder 5 "lamp" (attic.forest.anchor? 5 "lamp") := by
  have hreach : attic.Reachable := (Reachable.start []).runAll _
  have hlamp : attic.forest.anchor? 5 "lamp" = some 4 := by decide +kernel
  have hparent : attic.forest.parent? 4 = some 1 := by decide +kernel
  have hshelf : attic.forest.parent? 5 = some 0 := by decide +kernel
  have hroot : attic.forest.parent? 0 = none := hreach.shapely.top
  refine ⟨hreach, fun hanchored => ?_⟩
  rw [hlamp] at hanchored
  have hway : attic.forest.WayDown 0 [1, 4] 4 := .further (.child (by decide +kernel)) hparent
  have hother : attic.forest.WayDown 0 [2, 3] 3 :=
    .further (.child (by decide +kernel)) (by decide +kernel)
  cases hanchored with
  | child hchild => cases hparent.symm.trans hchild.1
  | @outwards steps above _ _ habove hmeets _ =>
    have hat : above = 5 ∨ above = 0 := by
      cases steps with
      | zero => exact .inl (Option.some.inj habove).symm
      | succ steps =>
        rw [outwards?, hshelf] at habove
        exact .inr (eq_of_outwards? hroot habove)
    cases hmeets with
    | itself _ _ => simp at hat
    | child _ hchild =>
      obtain rfl := Option.some.inj (hparent.symm.trans hchild.1)
      simp at hat
  | @inside steps above _ _ habove hfirst _ =>
    rw [hshelf, Option.getD_some] at habove
    obtain rfl := eq_of_outwards? hroot habove
    obtain ⟨-, line, hline, hbefore⟩ := hfirst
    obtain rfl := hreach.shapely.wayDown_unique hline hway
    have hlast := hbefore [2, 3] 3 hother (by decide +kernel) (by decide)
    simp [CreationOrder] at hlast

end ScopeTree

end Pipework
