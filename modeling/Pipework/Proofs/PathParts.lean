import Pipework.Proofs.Suffix

/-!
# The parts of a path

A path is its parent, its name and its extension put side by side, with a dot before the extension if
the base name has one at all. What is put in behind the name leaves parent and name as they are. So a
path with a suffix lies where the path lies, and is told from every path with another suffix.
-/

namespace Pipework.PathText

/-- Behind the parent of a path something without slashes may be put, and the parent stays. -/
theorem parent_eq_of_append {path other : String} {behind : List Char} (h : '/' ∉ behind)
    (hother : other.toList = (parent path).toList ++ behind) : parent other = parent path := by
  have hlist := toList_eq_append other
  rw [hother, baseName_append path h] at hlist
  exact String.toList_inj.mp (List.append_cancel_right hlist.symm)

theorem parent_withSuffix (path : String) {suffix : String} (h : IsSuffix suffix) :
    parent (withSuffix path suffix) = parent path := by
  obtain ⟨dots, rest, hlist, -, -, hslash⟩ := toList_withSuffix path h
  exact parent_eq_of_append hslash hlist

theorem dot_notMem_name (path : String) : '.' ∉ (name path).toList := by
  intro h
  rw [name, String.toList_ofList] at h
  simpa using List.mem_takeWhile_imp h

/-- A base name that goes on with a dot behind this name has it as its name. -/
theorem name_eq_of_baseName {path other : String} {behind : List Char}
    (hfirst : ∀ c ∈ behind.head?, c = '.')
    (hother : baseName other.toList = (name path).toList ++ behind) : name other = name path := by
  have hname : ∀ c ∈ (name path).toList, decide (c ≠ '.') = true := fun c hc =>
    decide_eq_true fun heq => dot_notMem_name path (heq ▸ hc)
  rw [name, hother, takeWhile_append_stop hname (by simpa using hfirst), String.ofList_toList]

theorem name_withSuffix (path : String) {suffix : String} (h : IsSuffix suffix) :
    name (withSuffix path suffix) = name path := by
  obtain ⟨dots, rest, hbase, hdots, -⟩ := baseName_withSuffix path h
  refine name_eq_of_baseName ?_ hbase
  cases dots with
  | nil => simp
  | cons first dots => simpa using hdots first List.mem_cons_self

/-- The parent is empty or ends in a slash. -/
theorem parent_eq (path : String) : parent path = "" ∨ ∃ front, parent path = front ++ "/" := by
  cases hrest : path.toList.reverse.dropWhile (· ≠ '/') with
  | nil => exact .inl (by rw [parent, hrest]; rfl)
  | cons last front =>
    have hlast : last ∈ (path.toList.reverse.dropWhile (· ≠ '/')).head? := by rw [hrest]; rfl
    obtain rfl : last = '/' := by simpa using eq_false_of_mem_head?_dropWhile hlast
    refine .inr ⟨String.ofList front.reverse, ?_⟩
    rw [parent, hrest]
    exact String.toList_inj.mp (by simp)

/-- The base name is the name if it has no dot, and else the name, a dot and the extension. -/
theorem baseName_eq (path : String) : baseName path.toList = (name path).toList ++
    if '.' ∈ baseName path.toList then '.' :: (extension path).toList else [] := by
  obtain ⟨behind, hbase, hdot, hextension⟩ := baseName_eq_append path
  rw [hextension]
  cases behind with
  | nil =>
    rw [List.append_nil] at hbase
    have hno : '.' ∉ baseName path.toList := by
      rw [hbase]
      exact dot_notMem_name path
    rw [if_neg hno, List.append_nil, hbase]
  | cons first behind =>
    obtain rfl : first = '.' := hdot first rfl
    rw [if_pos (by simp [hbase]), List.tail_cons, hbase]

/-- **Parts of paths and suffixes.** A path falls into its parent, which is empty or ends in a slash, and
a base name without slashes; that is its name, which has no dot, or if it has a dot, its name, a dot and
its extension. With a suffix put in, parent and name stay, and paths with different suffixes are
different, whatever paths these were put into. -/
theorem suffix_keeps_place (path : String) :
    (∃ base, path = parent path ++ base ∧ '/' ∉ base.toList ∧
      ('.' ∈ base.toList → base = name path ++ "." ++ extension path) ∧
      ('.' ∉ base.toList → base = name path)) ∧
    '/' ∉ (name path).toList ∧ '.' ∉ (name path).toList ∧
    (parent path = "" ∨ ∃ front, parent path = front ++ "/") ∧
    ∀ suffix, IsSuffix suffix →
      parent (withSuffix path suffix) = parent path ∧ name (withSuffix path suffix) = name path ∧
      ∀ other suffix', IsSuffix suffix' → suffix ≠ suffix' →
        withSuffix path suffix ≠ withSuffix other suffix' := by
  have hslash := slash_notMem_baseName path.toList
  have hname : '/' ∉ (name path).toList := by
    rw [baseName_eq, List.mem_append, not_or] at hslash
    exact hslash.1
  refine ⟨⟨String.ofList (baseName path.toList), ?_, ?_, fun hdot => ?_, fun hdot => ?_⟩, hname,
    dot_notMem_name path, parent_eq path, fun suffix h => ⟨parent_withSuffix path h,
    name_withSuffix path h, fun other suffix' h' hne heq => ?_⟩⟩
  · exact String.toList_inj.mp (by rw [String.toList_append, String.toList_ofList, ← toList_eq_append])
  · rw [String.toList_ofList]
    exact hslash
  · rw [String.toList_ofList] at hdot
    refine String.toList_inj.mp ?_
    rw [String.toList_ofList, baseName_eq, if_pos hdot]
    simp
  · rw [String.toList_ofList] at hdot
    rw [baseName_eq, if_neg hdot, List.append_nil, String.ofList_toList]
  · exact hne (suffix_eq_of_withSuffix_eq h h' heq)

/-- Two hidden files, each of which takes what the other is called for its suffix. -/
theorem hidden_files_apart : parent (withSuffix "home/.notes" "old") = "home/" ∧
    name (withSuffix "home/.notes" "old") = "" ∧
    withSuffix "home/.notes" "old" ≠ withSuffix "home/.old" "notes" := by
  have hold : IsSuffix "old" := ⟨by decide, by decide, by decide⟩
  have hnotes : IsSuffix "notes" := ⟨by decide, by decide, by decide⟩
  obtain ⟨-, -, -, -, h⟩ := suffix_keeps_place "home/.notes"
  obtain ⟨hparent, hname, hapart⟩ := h "old" hold
  refine ⟨hparent.trans (by decide), hname.trans (by decide), ?_⟩
  exact hapart "home/.old" "notes" hnotes (by decide)

end Pipework.PathText
