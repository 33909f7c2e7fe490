import Pipework.Proofs.Evaluation
import Pipework.Proofs.Filling
import Pipework.Proofs.Flatness
import Pipework.Proofs.Gathering
import Pipework.Proofs.Lookups
import Pipework.Proofs.UniqueScalars

/-!
# Gathering one by one and all at once

A list gathers from several sources one after the other. What it has gathered is not waiting to be
filled, so it stays when the next source comes, and repetitions that were dropped do not come back. So it
ends up with what it would have gathered from a single source with all these values in a list: the same
list if the definition asks for one part of the source, and else the same scalars in another order, as
they come by sources in the one case and by parts in the other. And as what is asked for is there or not
whatever the values are, gathering fails in the one case if and only if it does in the other, and for the
same.
-/

namespace Pipework

open Step Value

/-! ### Text that refers to nothing -/

namespace NumberStyle

/-- No digit is a dollar sign. -/
theorem notMem_toDigits (n : Nat) : '$' ∉ Nat.toDigits 10 n := fun h =>
  absurd (Nat.isDigit_of_mem_toDigits (by decide) (by decide) h) (by decide)

/-- There is no dollar sign in what is written for a decimal number. -/
theorem notMem_layout (style : NumberStyle) (d : Decimal) : '$' ∉ style.layout d := by
  have hdigits := notMem_toDigits d.digits
  have htake : ∀ n, '$' ∉ (Nat.toDigits 10 d.digits).take n := fun n h =>
      hdigits (List.mem_of_mem_take h)
  have hdrop : ∀ n, '$' ∉ (Nat.toDigits 10 d.digits).drop n := fun n h =>
      hdigits (List.mem_of_mem_drop h)
  rw [layout]
  split
  · rw [plain]
    dsimp only
    split
    · simp [hdigits]
    · split
      · simp [htake, hdrop]
      · simp [hdigits]
  · have hsign : ∀ order : Int, '$' ∉ (if order < 0 then ['-'] else
        if style.exponentPlus then ['+'] else []) := by
      intro order
      split
      · simp
      · split <;> simp
    rw [scientific]
    simp only [List.mem_append, List.mem_cons, not_or]
    refine ⟨?_, by decide, hsign _, notMem_toDigits _⟩
    split
    next => simp
    next heq => simpa [heq] using hdigits
    next heq => simpa [heq] using hdigits

end NumberStyle

/-- There is no dollar sign in what is written for a number. -/
theorem Binary64.notMem_render (x : Binary64) : '$' ∉ (x.render .inText).toList := by
  rw [Binary64.render]
  split
  · decide
  · split
    · split <;> decide
    · dsimp only
      rw [String.toList_ofList]
      split
      · simpa using NumberStyle.notMem_layout _ _
      · exact NumberStyle.notMem_layout _ _

/-- Scalars that refer to nothing are written as text that refers to nothing. -/
theorem Value.mayRefer_render {v : Value} (hv : v.isList = false) (h : v.mayRefer = false) :
    Template.mayRefer v.render = false := by
  cases v with
  | list items => cases hv
  | str text => exact h
  | bool b => cases b <;> decide
  | int n =>
    refine Template.hasOpening_of_notMem ?_
    rw [Value.render]
    cases n.toInt with
    | ofNat m =>
      change '$' ∉ m.repr.toList
      rw [Nat.toList_repr]
      exact NumberStyle.notMem_toDigits m
    | negSucc m =>
      change '$' ∉ ("-" ++ (m + 1).repr).toList
      rw [String.toList_append, Nat.toList_repr]
      simpa using NumberStyle.notMem_toDigits (m + 1)
  | float x => exact Template.hasOpening_of_notMem x.notMem_render

namespace FileField

/-! ### Parts of scalars -/

/-- What is left of a scalar when parts of it are asked for one after the other. Where there is no such
part, nothing is. -/
def part (segments : List String) (scalar : Value) : Value :=
  segments.foldl (fun v segment => .str (((ofText? segment).map (·.apply v.render)).getD "")) scalar

/-- The first segment that asks for no part there is. -/
def fault? (segments : List String) : Option String :=
  segments.find? fun segment => (ofText? segment).isNone

/-- Parts that are asked for without fault are parts that there are. -/
theorem isSome_of_fault? {segments : List String} (h : fault? segments = none) :
    ∀ segment ∈ segments, (ofText? segment).isSome := fun segment hmem => by
  simpa [Option.isSome_iff_ne_none] using List.find?_eq_none.mp h segment hmem

/-- Parts of a scalar are taken one after the other. -/
theorem part_cons (segment : String) (segments : List String) (scalar : Value) :
    part (segment :: segments) scalar =
      part segments (.str (((ofText? segment).map (·.apply scalar.render)).getD "")) := rfl

/-- A part of a scalar is a scalar. -/
theorem isList_part (segments : List String) {scalar : Value} (h : scalar.isList = false) :
    (part segments scalar).isList = false := by
  induction segments generalizing scalar with
  | nil => exact h
  | cons segment segments ih => exact ih rfl

/-- A part of anything is text. -/
theorem exists_text_of_part {segments : List String} (h : segments ≠ []) (scalar : Value) :
    ∃ text, part segments scalar = .str text := by
  induction segments generalizing scalar with
  | nil => exact absurd rfl h
  | cons segment segments ih =>
    rw [part_cons]
    cases segments with
    | nil => exact ⟨_, rfl⟩
    | cons next rest => exact ih (List.cons_ne_nil _ _) _

/-- Parts of what refers to nothing refer to nothing. -/
theorem mayRefer_part (segments : List String) {scalar : Value} (hscalar : scalar.isList = false)
    (h : scalar.mayRefer = false) : (part segments scalar).mayRefer = false := by
  induction segments generalizing scalar with
  | nil => exact h
  | cons segment segments ih =>
    refine ih rfl ?_
    rw [Value.mayRefer]
    cases ofText? segment with
    | none => rfl
    | some field =>
      rw [← Bool.not_eq_true, Template.mayRefer_iff]
      intro hopening
      have hwhole : ['$', '{'] <:+: scalar.render.toList :=
        hopening.trans (field.infix_apply scalar.render)
      rw [← Template.mayRefer_iff, mayRefer_render hscalar h] at hwhole
      cases hwhole

/-- What is derived from a scalar is the part of it. -/
theorem eq_part_of_derive {segments : List String} {reference : String} {scalar w : Value}
    (hscalar : scalar.isList = false) (h : derive scalar segments reference = .ok w) :
    w = part segments scalar := by
  induction segments generalizing scalar with
  | nil => exact (Except.ok.inj h).symm
  | cons segment segments ih =>
    obtain ⟨u, hu, h⟩ := derive_cons.mp h
    have hpart : deriveScalar reference segment scalar = .ok u := by
      cases scalar with
      | list items => cases hscalar
      | bool _ | int _ | float _ | str _ => exact hu
    rw [part_cons]
    rw [deriveScalar] at hpart
    split at hpart
    next field hfield =>
      obtain rfl := Except.ok.inj hpart
      rw [hfield]
      exact ih rfl h
    next => cases hpart

/-- The scalars in a part of a value are the parts of its scalars. -/
theorem leaves_derive {v w : Value} {segments : List String} {reference : String}
    (h : derive v segments reference = .ok w) : w.leaves = v.leaves.map (part segments) := by
  have hall := leaves_of_derive h
  refine List.ext_getElem (by rw [List.length_map, hall.length_eq]) fun i hi hi' => ?_
  have hi'' : i < v.leaves.length := hall.length_eq ▸ hi
  rw [List.getElem_map]
  exact eq_part_of_derive (isList_of_mem_leaves (List.getElem_mem hi''))
    ((List.forall₂_iff_get.mp hall).2 i hi'' hi)

/-- Whatever is asked for of a value, it is only refused if there is a scalar to ask it of. -/
theorem exists_derive_of_no_leaves {v : Value} (h : v.leaves = []) (segments : List String)
    (reference : String) : ∃ w, derive v segments reference = .ok w := by
  induction segments generalizing v with
  | nil => exact ⟨v, rfl⟩
  | cons segment segments ih =>
    cases hfirst : v.mapLeavesM (deriveScalar reference segment) with
    | error e =>
      obtain ⟨y, hy, -⟩ := exists_of_mapLeavesM_eq_error hfirst
      rw [h] at hy
      cases hy
    | ok u =>
      have hleaves := leaves_of_mapLeavesM isList_of_deriveScalar hfirst
      rw [h, List.forall₂_nil_left_iff] at hleaves
      obtain ⟨w, hw⟩ := ih hleaves
      exact ⟨w, derive_cons.mpr ⟨u, hfirst, hw⟩⟩

/-- What is asked for of some scalars is refused for the first segment that asks for no part. -/
theorem derive_of_fault {segments : List String} {segment : String} (h : fault? segments = some segment)
    {v : Value} (hv : v.leaves ≠ []) (reference : String) :
    derive v segments reference = .error (.unknownFileField reference segment) := by
  induction segments generalizing v with
  | nil => cases h
  | cons first segments ih =>
    rw [derive, List.foldlM_cons]
    cases hmap : v.mapLeavesM (deriveScalar reference first) with
    | error e =>
      obtain ⟨y, -, hy⟩ := exists_of_mapLeavesM_eq_error hmap
      obtain ⟨rfl, hnone⟩ := deriveScalar_eq_error hy
      obtain rfl : first = segment := by simpa [fault?, hnone] using h
      rfl
    | ok u =>
      have hleaves := leaves_of_mapLeavesM isList_of_deriveScalar hmap
      have hu : u.leaves ≠ [] := fun hnil => hv (by simpa [hnil] using hleaves)
      obtain ⟨y, hy⟩ := List.exists_mem_of_ne_nil _ hv
      obtain ⟨z, -, hz⟩ := exists_of_mem_left hleaves hy
      have hfirst : (ofText? first).isSome := by
        cases hfield : ofText? first with
        | some field => rfl
        | none =>
          rw [deriveScalar, hfield] at hz
          cases hz
      have hrest : fault? segments = some segment := by
        rw [fault?, List.find?_cons_of_neg (by simpa [Option.isSome_iff_ne_none] using hfirst)] at h
        exact h
      exact ih hrest hu

end FileField

namespace Merge

/-! ### What a source adds -/

/-- The places in the definition that the source fills, and what they ask of it. -/
def places (declared? : Option Value) (property : String) (names : List String) :
    List (List String × List String) :=
  ((declared?.map Value.toList).getD []).filterMap (placeholder? property names)

/-- The parts that are asked for at the places, or all of the source if there is none. -/
def requests (places : List (List String × List String)) : List (List String) :=
  if places = [] then [[]] else places.map (·.2)

/-- What goes wrong when the places ask for something of a scalar. -/
def fault? (places : List (List String × List String)) : Option ScopeError :=
  places.findSome? fun place => (FileField.fault? place.2).map (.unknownFileField (joinPath place.1))

/-- The scalars that come of a value by what is asked for. -/
def shares (requests : List (List String)) (v : Value) : List Value :=
  requests.flatMap fun segments => v.leaves.map (FileField.part segments)

/-- What several requests ask of a value are scalars. -/
theorem isList_of_mem_shares {requests : List (List String)} {v y : Value} (h : y ∈ shares requests v) :
    y.isList = false := by
  obtain ⟨segments, -, h⟩ := List.mem_flatMap.mp h
  obtain ⟨l, hl, rfl⟩ := List.mem_map.mp h
  exact FileField.isList_part segments (isList_of_mem_leaves hl)

/-- What is asked of a value that cannot be taken for a reference cannot be taken for one. -/
theorem mayRefer_of_mem_shares {requests : List (List String)} {v y : Value} (hv : v.mayRefer = false)
    (h : y ∈ shares requests v) : y.mayRefer = false := by
  obtain ⟨segments, -, h⟩ := List.mem_flatMap.mp h
  obtain ⟨l, hl, rfl⟩ := List.mem_map.mp h
  exact FileField.mayRefer_part segments (isList_of_mem_leaves hl) (mayRefer_of_mem_leaves hv hl)

/-- What places ask for of a scalar is refused at the first place that asks for no part there is. -/
theorem mapM_derive_of_fault {found : List (List String × List String)} {e : ScopeError}
    (h : fault? found = some e) {v : Value} (hv : v.leaves ≠ []) :
    (found.mapM fun place => FileField.derive v place.2 (joinPath place.1)) = .error e := by
  induction found with
  | nil => cases h
  | cons place rest ih =>
    rw [List.mapM_cons]
    cases hplace : FileField.fault? place.2 with
    | some segment =>
      obtain rfl : ScopeError.unknownFileField (joinPath place.1) segment = e := by
        simpa [fault?, hplace] using h
      rw [FileField.derive_of_fault hplace hv]
      rfl
    | none =>
      obtain ⟨w, hw⟩ :=
        FileField.exists_derive (v := v) (FileField.isSome_of_fault? hplace) (joinPath place.1)
      have hrest : fault? rest = some e := by simpa [fault?, hplace] using h
      rw [hw, ih hrest]
      rfl

/-- What is derived for several references has the scalars that are asked for. -/
theorem allLeaves_of_mapM_derive {found : List (List String × List String)} {v : Value}
    {added : List Value}
    (h : (found.mapM fun place => FileField.derive v place.2 (joinPath place.1)) = .ok added) :
    allLeaves added = shares (found.map (·.2)) v := by
  have hall := forall₂_of_mapM_ok h
  clear h
  induction hall with
  | nil => rfl
  | cons hfirst _ ih =>
    rw [allLeaves, FileField.leaves_derive hfirst, ih]
    rfl

section Incoming

variable {declared? : Option Value} {property : String} {names : List String} {v : Value}

/-- A value comes in once for each place that it is asked for, or as it is if it is asked for nowhere. -/
theorem incoming_eq : incoming declared? v property names = match places declared? property names with
    | [] => .ok [v]
    | places => places.mapM fun place => FileField.derive v place.2 (joinPath place.1) := rfl

/-- What a source adds are its shares, if it adds anything. -/
theorem allLeaves_of_incoming {added : List Value} (h : incoming declared? v property names = .ok added) :
    allLeaves added = shares (requests (places declared? property names)) v := by
  rw [incoming_eq] at h
  split at h
  next hnone =>
    obtain rfl := Except.ok.inj h
    have hwhole : FileField.part [] = id := rfl
    simp [shares, requests, hnone, allLeaves, hwhole]
  next found hfound =>
    rw [requests, if_neg hfound]
    exact allLeaves_of_mapM_derive h

/-- A source adds something if there is nothing wrong with what is asked for, or no scalar to ask it of. -/
theorem exists_incoming (h : v.leaves = [] ∨ fault? (places declared? property names) = none) :
    ∃ added, incoming declared? v property names = .ok added := by
  rw [incoming_eq]
  split
  · exact ⟨_, rfl⟩
  next found hfound =>
    cases hmap : (places declared? property names).mapM fun place =>
        FileField.derive v place.2 (joinPath place.1) with
    | ok added => exact ⟨added, rfl⟩
    | error e =>
      obtain ⟨place, hplace, herror⟩ := exists_of_mapM_eq_error hmap
      obtain ⟨w, hw⟩ : ∃ w, FileField.derive v place.2 (joinPath place.1) = .ok w := by
        rcases h with hv | hfault
        · exact FileField.exists_derive_of_no_leaves hv _ _
        · exact FileField.exists_derive (FileField.isSome_of_fault?
            (Option.map_eq_none_iff.mp (List.findSome?_eq_none_iff.mp hfault place hplace))) _
      cases herror.symm.trans hw

/-- A value with scalars does not come in where a part is asked for that there is not. -/
theorem incoming_of_fault {e : ScopeError} (h : fault? (places declared? property names) = some e)
    (hv : v.leaves ≠ []) : incoming declared? v property names = .error e := by
  rw [incoming_eq]
  split
  next hnone =>
    rw [hnone] at h
    cases h
  next found hfound => exact mapM_derive_of_fault h hv

end Incoming

/-! ### One by one -/

/-- Whether a list that gathers keeps an element when it is handed more. -/
def keeps (link : DataLink) (names : List String) (v : Value) : Bool :=
  match link.cardinality with
  | .oneToMany => !v.mayRefer
  | _ => (placeholder? link.sourceProperty names v).isNone

/-- What a list that gathers has when it is handed more. -/
def kept (link : DataLink) (names : List String) (existing? : Option Value) : List Value :=
  ((existing?.map Value.toList).getD []).filter (keeps link names)

/-- What refers to nothing is kept. -/
theorem keeps_of_not_mayRefer (link : DataLink) (names : List String) {v : Value}
    (h : v.mayRefer = false) : keeps link names v = true := by
  rw [keeps.eq_def]
  split
  · rw [h]
    rfl
  · cases hplace : placeholder? link.sourceProperty names v with
    | none => rfl
    | some found =>
      have hreferences := references_of_placeholder? hplace
      rw [Value.references_of_not_mayRefer h] at hreferences
      cases hreferences

section Gathering

variable {link : DataLink} (hlink : link.cardinality = .oneToMany ∨ link.cardinality = .manyToMany)
  (target : String) (declared? : Option Value) (names : List String)

/-- What is asked for of the source of a link. -/
def asked (link : DataLink) (declared? : Option Value) (names : List String) : List (List String) :=
  requests (places declared? link.sourceProperty names)

include hlink

/-- An edge into a list merges by gathering. -/
theorem merge_eq (existing? : Option Value) (v : Value) :
    merge (.data link) target existing? declared? v names =
      (lift (gather link existing? declared? v names (keeps link names))).map some := by
  rcases hlink with hlink | hlink
  all_goals
    have hkeeps : keeps link names = _ := funext fun v => by rw [keeps, hlink]
    rw [merge, hlink, hkeeps]
    dsimp only
    cases gather link existing? declared? v names _ <;> rfl

/-- What has been gathered is kept, and the shares of the source come behind it. -/
theorem merge_of_incoming {existing? : Option Value} {v : Value} {added : List Value}
    (h : incoming declared? v link.sourceProperty names = .ok added) :
    merge (.data link) target existing? declared? v names = .ok (some (.list (flattenUnique
      (kept link names existing? ++ shares (asked link declared? names) v)))) := by
  have hshares : allLeaves (shares (asked link declared? names) v) = allLeaves added := by
    rw [allLeaves_of_incoming h, asked]
    exact allLeaves_of_scalars fun _ => isList_of_mem_shares
  rw [merge_eq hlink, gather, h]
  refine congrArg (fun items => Except.ok (some (Value.list items))) (flattenUnique_congr ?_)
  rw [allLeaves_append, allLeaves_append, hshares, kept]

/-- Gathering fails for the part that there is not. -/
theorem merge_of_fault {existing? : Option Value} {v : Value} {e : ScopeError}
    (h : fault? (places declared? link.sourceProperty names) = some e) (hv : v.leaves ≠ []) :
    merge (.data link) target existing? declared? v names = .error (.scope e) := by
  rw [merge_eq hlink, gather, incoming_of_fault h hv]
  rfl

variable {existing? : Option Value} (hflat : ∀ v ∈ existing?, v.isFlat = true)

omit hlink in
include hflat in
/-- What is kept of a list are scalars. -/
theorem isList_of_mem_kept {y : Value} (h : y ∈ kept link names existing?) : y.isList = false := by
  have hmem := List.mem_of_mem_filter h
  cases existing? with
  | none => cases hmem
  | some existing => exact isList_of_mem_toList (hflat existing rfl) hmem

omit hlink in
include hflat in
/-- What has been gathered is not waiting to be filled. -/
theorem kept_gathered (requests : List (List String)) {v : Value} (hv : v.mayRefer = false) :
    kept link names (some (.list (flattenUnique (kept link names existing? ++ shares requests v)))) =
      flattenUnique (kept link names existing? ++ shares requests v) := by
  refine List.filter_eq_self.mpr fun y hy => ?_
  have hleaf := mem_of_mem_flattenUnique hy
  rw [allLeaves_append, List.mem_append, allLeaves_of_scalars fun _ => isList_of_mem_kept names hflat,
    allLeaves_of_scalars fun _ => isList_of_mem_shares] at hleaf
  rcases hleaf with hkept | hshare
  · exact (List.mem_filter.mp hkept).2
  · exact keeps_of_not_mayRefer link names (mayRefer_of_mem_shares hv hshare)

omit hlink in
/-- A list that was gathered has no list in it. -/
theorem isFlat_gathered (vs : List Value) :
    ∀ v ∈ some (Value.list (flattenUnique vs)), v.isFlat = true := by
  rintro _ ⟨⟩
  exact isFlat_list.mpr fun item hitem => isList_of_mem_allLeaves (mem_of_mem_flattenUnique hitem)

include hflat

/-- One by one, a list gathers the shares of all sources behind what it has. -/
theorem foldlM_merge {values : List Value} (hne : values ≠ [])
    (hclear : ∀ v ∈ values, v.mayRefer = false)
    (h : ∀ v ∈ values, v.leaves = [] ∨ fault? (places declared? link.sourceProperty names) = none) :
    values.foldlM (fun existing? v => merge (.data link) target existing? declared? v names) existing? =
      .ok (some (.list (flattenUnique
        (kept link names existing? ++ values.flatMap (shares (asked link declared? names)))))) := by
  induction values generalizing existing? with
  | nil => exact absurd rfl hne
  | cons v rest ih =>
    obtain ⟨added, hadded⟩ := exists_incoming (h v List.mem_cons_self)
    rw [List.foldlM_cons, merge_of_incoming hlink target declared? names hadded]
    cases hrest : rest with
    | nil => simp only [List.flatMap_cons, List.flatMap_nil, List.append_nil]; rfl
    | cons w others =>
      have hmore := ih (isFlat_gathered (kept link names existing? ++
        shares (asked link declared? names) v)) (hrest ▸ List.cons_ne_nil w others)
        (fun u hu => hclear u (List.mem_cons_of_mem v hu)) fun u hu => h u (List.mem_cons_of_mem v hu)
      rw [kept_gathered names hflat _ (hclear v List.mem_cons_self), flattenUnique_append,
        List.append_assoc, ← List.flatMap_cons] at hmore
      rw [← hrest]
      exact hmore

omit hflat in
/-- One by one, what is asked for is refused as soon as there is a scalar to ask it of. -/
theorem foldlM_merge_of_fault {values : List Value} {e : ScopeError}
    (h : fault? (places declared? link.sourceProperty names) = some e) {v : Value} (hmem : v ∈ values)
    (hv : v.leaves ≠ []) :
    values.foldlM (fun existing? v => merge (.data link) target existing? declared? v names) existing? =
      .error (.scope e) := by
  induction values generalizing existing? with
  | nil => cases hmem
  | cons first rest ih =>
    rw [List.foldlM_cons]
    by_cases hfirst : first.leaves = []
    · obtain ⟨added, hadded⟩ := exists_incoming (.inl hfirst)
      rw [merge_of_incoming hlink target declared? names hadded]
      refine ih ((List.mem_cons.mp hmem).resolve_left ?_)
      rintro rfl
      exact hv hfirst
    · rw [merge_of_fault hlink target declared? names h hfirst]
      rfl

end Gathering

/-! ### All at once -/

/-- What is asked of a list is asked of all its scalars, request by request. -/
theorem shares_list (requests : List (List String)) (values : List Value) :
    shares requests (.list values) =
      requests.flatMap fun segments => (allLeaves values).map (FileField.part segments) := rfl

/-- The shares of all values at once are those of each of them, in another order. -/
theorem perm_shares (requests : List (List String)) (values : List Value) :
    (values.flatMap (shares requests)).Perm (shares requests (.list values)) := by
  induction values with
  | nil => simp [shares_list, allLeaves]
  | cons v values ih =>
    have hboth : shares requests (.list (v :: values)) = requests.flatMap fun segments =>
        v.leaves.map (FileField.part segments) ++ (allLeaves values).map (FileField.part segments) := by
      simp only [shares_list, allLeaves, List.map_append]
    rw [List.flatMap_cons, hboth]
    exact (ih.append_left (shares requests v)).trans (List.flatMap_append_perm requests _ _)

/-- The shares come in the same order if there is but one of each. -/
theorem shares_of_single (segments : List String) (values : List Value) :
    values.flatMap (shares [segments]) = shares [segments] (.list values) := by
  have hone : ∀ v, shares [segments] v = v.leaves.map (FileField.part segments) := fun v => by
    simp [shares]
  induction values with
  | nil => rfl
  | cons v values ih =>
    rw [List.flatMap_cons, ih, hone, shares_list, shares_list]
    simp [allLeaves]

/-- A number is among the shares only if the whole source is asked for. -/
theorem find?_shares (requests : List (List String)) (v : Value) (r : Binary64) :
    (shares requests v).find? (sameScalar · (.float r)) =
      if [] ∈ requests then v.leaves.find? (sameScalar · (.float r)) else none := by
  induction requests with
  | nil => rfl
  | cons segments requests ih =>
    rw [shares, List.flatMap_cons, List.find?_append, ← shares, ih]
    by_cases hwhole : segments = []
    · subst hwhole
      have hself : v.leaves.map (FileField.part []) = v.leaves := List.map_id _
      rw [hself, if_pos List.mem_cons_self]
      split
      · exact Option.or_self
      · exact Option.or_none
    · have hnone : (v.leaves.map (FileField.part segments)).find? (sameScalar · (.float r)) = none := by
        refine List.find?_eq_none.mpr fun y hy => ?_
        obtain ⟨l, -, rfl⟩ := List.mem_map.mp hy
        obtain ⟨text, htext⟩ := FileField.exists_text_of_part hwhole l
        rw [htext]
        simp [sameScalar]
      rw [hnone, Option.none_or]
      simp [Ne.symm hwhole]

/-- What stands for a number is found first among what is asked of the values together just if it is so
one by one. -/
theorem find?_flatMap_shares (requests : List (List String)) (values : List Value) (r : Binary64) :
    (values.flatMap (shares requests)).find? (sameScalar · (.float r)) =
      (shares requests (.list values)).find? (sameScalar · (.float r)) := by
  rw [find?_shares, Value.leaves]
  induction values with
  | nil => simp [allLeaves]
  | cons v values ih =>
    rw [List.flatMap_cons, List.find?_append, ih, find?_shares, allLeaves, List.find?_append]
    split
    · rfl
    · rfl

/-- Where a list is asked for at one place at most, there is one request. -/
theorem length_requests_le {places : List (List String × List String)} (h : places.length ≤ 1) :
    ∃ segments, requests places = [segments] := by
  match places, h with
  | [], _ => exact ⟨[], rfl⟩
  | [place], _ => exact ⟨place.2, rfl⟩

/-- **Gathering.** Let a list that gathers, or a value that stands for one, be handed values that refer to
nothing, one by one, and let it be handed a list of all of them instead. Both fail, and for the same, or
both end in lists with the same elements as often. These are in the same order if at most one place in the
definition is filled by the source. -/
theorem gathers_alike {link : DataLink}
    (hlink : link.cardinality = .oneToMany ∨ link.cardinality = .manyToMany) (target : String)
    {existing? : Option Value} (hflat : ∀ v ∈ existing?, v.isFlat = true) (declared? : Option Value)
    (names : List String) {values : List Value} (hne : values ≠ [])
    (hclear : ∀ v ∈ values, v.mayRefer = false) :
    (∃ e, values.foldlM (fun existing? v => merge (.data link) target existing? declared? v names)
        existing? = .error e ∧
      merge (.data link) target existing? declared? (.list values) names = .error e) ∨
    ∃ xs ys, values.foldlM (fun existing? v => merge (.data link) target existing? declared? v names)
        existing? = .ok (some (.list xs)) ∧
      merge (.data link) target existing? declared? (.list values) names = .ok (some (.list ys)) ∧
      xs.Perm ys ∧ ((places declared? link.sourceProperty names).length ≤ 1 → xs = ys) := by
  by_cases hsound : (Value.list values).leaves = [] ∨
      fault? (places declared? link.sourceProperty names) = none
  · have heach : ∀ v ∈ values, v.leaves = [] ∨
        fault? (places declared? link.sourceProperty names) = none := by
      intro v hv
      refine hsound.imp_left fun hnone => List.eq_nil_iff_forall_not_mem.mpr fun y hy => ?_
      rw [Value.leaves, List.eq_nil_iff_forall_not_mem] at hnone
      exact hnone y (mem_allLeaves.mpr ⟨v, hv, hy⟩)
    obtain ⟨added, hadded⟩ := exists_incoming hsound
    refine .inr ⟨_, _, foldlM_merge hlink target declared? names hflat hne hclear heach,
      merge_of_incoming hlink target declared? names hadded, ?_, fun hone => ?_⟩
    · have hshares : ∀ y ∈ values.flatMap (shares (asked link declared? names)), y.isList = false := by
        intro y hy
        obtain ⟨v, -, hy⟩ := List.mem_flatMap.mp hy
        exact isList_of_mem_shares hy
      refine perm_flattenUnique ?_ fun r => ?_
      · rw [allLeaves_append, allLeaves_append, allLeaves_of_scalars hshares,
          allLeaves_of_scalars fun _ => isList_of_mem_shares]
        exact (perm_shares _ values).append_left _
      · rw [allLeaves_append, allLeaves_append, allLeaves_of_scalars hshares,
          allLeaves_of_scalars fun _ => isList_of_mem_shares, List.find?_append, List.find?_append,
          find?_flatMap_shares]
    · obtain ⟨segments, hsegments⟩ := length_requests_le hone
      rw [asked, hsegments, shares_of_single]
  · obtain ⟨hleaves, hfault⟩ := not_or.mp hsound
    obtain ⟨e, he⟩ := Option.ne_none_iff_exists'.mp hfault
    obtain ⟨y, hy⟩ := List.exists_mem_of_ne_nil _ hleaves
    obtain ⟨v, hv, hy⟩ := mem_allLeaves.mp hy
    exact .inl ⟨.scope e, foldlM_merge_of_fault hlink target declared? names he hv (List.ne_nil_of_mem hy),
      merge_of_fault hlink target declared? names he hleaves⟩

/-- An album that gathers the cards that come by post. -/
def album : DataLink := ⟨.oneToMany, "cards", "pages", .list [], none⟩

/-- Cards, some of them in envelopes, and two numbers that are equal. -/
def cards : List Value :=
  [.list [.str "sea/gull.png", .list [.float ⟨0⟩]], .float ⟨0x8000000000000000⟩, .str "hill.png"]

/-- The album as it was meant to be, with pages for the cards themselves and perhaps for parts of them. -/
def pages (others : List Value) : Option Value :=
  some (.list (.str "$\x7bpost.cards\x7d" :: .str "title" :: others))

/-- It makes no difference whether the cards come one by one. If their names are wanted on other pages,
these are behind all cards or behind each, and if something is wanted that cards do not have, it is
missed either way. -/
theorem cards_are_gathered :
    cards.foldlM (fun existing? v => merge (.data album) "album" existing? (pages []) v ["post"])
        (pages []) =
      merge (.data album) "album" (pages []) (pages []) (.list cards) ["post"] ∧
    (∃ xs ys, cards.foldlM (fun existing? v => merge (.data album) "album" existing?
        (pages [.str "$\x7bpost.cards.name\x7d"]) v ["post"]) none = .ok (some (.list xs)) ∧
      merge (.data album) "album" none (pages [.str "$\x7bpost.cards.name\x7d"]) (.list cards) ["post"] =
        .ok (some (.list ys)) ∧ xs.Perm ys ∧ xs ≠ ys) ∧
    ∃ e, cards.foldlM (fun existing? v => merge (.data album) "album" existing?
        (pages [.str "$\x7bpost.cards.stamp\x7d"]) v ["post"]) none = .error e ∧
      merge (.data album) "album" none (pages [.str "$\x7bpost.cards.stamp\x7d"]) (.list cards) ["post"] =
        .error e := by
  have hclear : ∀ v ∈ cards, v.mayRefer = false := by decide
  have halike := fun existing? hflat declared? =>
    @gathers_alike album (.inl rfl) "album" existing? hflat declared? ["post"] cards (by decide) hclear
  refine ⟨?_, ?_, ?_⟩
  · have hflat : ∀ v ∈ pages [], v.isFlat = true := by
      rintro _ ⟨⟩
      decide
    rcases halike (pages []) hflat (pages []) with ⟨e, h, h'⟩ | ⟨xs, ys, h, h', -, hone⟩
    · rw [h, h']
    · rw [h, h', hone (by decide +kernel)]
  · have hplaced : (merge (.data album) "album" none (pages [.str "$\x7bpost.cards.name\x7d"])
          (.list cards) ["post"]).toOption.isSome ∧
        cards.foldlM (fun existing? v => merge (.data album) "album" existing?
            (pages [.str "$\x7bpost.cards.name\x7d"]) v ["post"]) none ≠
          merge (.data album) "album" none (pages [.str "$\x7bpost.cards.name\x7d"]) (.list cards)
            ["post"] := by
      decide +kernel
    rcases halike none nofun (pages [.str "$\x7bpost.cards.name\x7d"]) with
      ⟨e, -, h'⟩ | ⟨xs, ys, h, h', hperm, -⟩
    · rw [h'] at hplaced
      cases hplaced.1
    · refine ⟨xs, ys, h, h', hperm, ?_⟩
      rintro rfl
      exact hplaced.2 (h.trans h'.symm)
  · rcases halike none nofun (pages [.str "$\x7bpost.cards.stamp\x7d"]) with
      hfails | ⟨xs, ys, -, h', -⟩
    · exact hfails
    · have hrefused : (merge (.data album) "album" none (pages [.str "$\x7bpost.cards.stamp\x7d"])
          (.list cards) ["post"]).toOption = none := by
        decide +kernel
      rw [h'] at hrefused
      cases hrefused

end Merge

end Pipework
