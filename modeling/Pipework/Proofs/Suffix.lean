import Pipework.Graph.Split
import Pipework.PathText
import Pipework.Proofs.Template

/-!
# Suffixes of paths

A suffix without dots and slashes can be read off the path that it was put into: it stands behind
the dots that end the name. So paths with different suffixes are different, whatever the paths
were before. The suffixes of repetitions are of this kind, and differ from place to place.
-/

namespace Pipework

namespace PathText

theorem slash_notMem_baseName (path : List Char) : '/' ∉ baseName path := by
  intro h
  rw [baseName, List.mem_reverse] at h
  simpa using List.mem_takeWhile_imp h

theorem toList_eq_append (path : String) :
    path.toList = (parent path).toList ++ baseName path.toList := by
  rw [parent, baseName, String.toList_ofList, ← List.reverse_append,
    List.takeWhile_append_dropWhile, List.reverse_reverse]

/-- Behind the parent of a path stands the base name, if no slash comes in there. -/
theorem baseName_append (path : String) {behind : List Char} (h : '/' ∉ behind) :
    baseName ((parent path).toList ++ behind) = behind := by
  have hbehind : ∀ c ∈ behind.reverse, decide (c ≠ '/') = true := fun c hc =>
    decide_eq_true fun heq => h (heq ▸ List.mem_reverse.mp hc)
  have hparent : ∀ c ∈ (parent path).toList.reverse.head?, decide (c ≠ '/') = false := by
    intro c hc
    rw [parent, String.toList_ofList, List.reverse_reverse] at hc
    exact eq_false_of_mem_head?_dropWhile hc
  rw [baseName, List.reverse_append, takeWhile_append_stop hbehind hparent, List.reverse_reverse]

/-- Something to put into a path that neither parts directories nor ends a name. -/
structure IsSuffix (suffix : String) : Prop where
  /-- It is not empty. -/
  ne_empty : suffix ≠ ""
  /-- It has no dot. -/
  dot : '.' ∉ suffix.toList
  /-- It has no slash. -/
  slash : '/' ∉ suffix.toList

/-- What stands behind the first dots of the base name of a path, up to the next dot. -/
def suffixOf (path : String) : List Char :=
  (((baseName path.toList).dropWhile (· ≠ '.')).dropWhile (· = '.')).takeWhile (· ≠ '.')

/-- The base name ends in its extension, with a dot before it. -/
theorem baseName_eq_append (path : String) : ∃ behind, baseName path.toList =
    (name path).toList ++ behind ∧ (∀ c ∈ behind.head?, c = '.') ∧
      (extension path).toList = behind.tail := by
  refine ⟨(baseName path.toList).dropWhile (· ≠ '.'), ?_, fun c hc => ?_, ?_⟩
  · rw [name, String.toList_ofList, List.takeWhile_append_dropWhile]
  · simpa using eq_false_of_mem_head?_dropWhile hc
  · rw [extension, String.toList_ofList]

/-- How a path with a suffix is made up: behind the parent and the name of the path stand dots and
the suffix, and then the extension, if there is one. -/
theorem toList_withSuffix (path : String) {suffix : String} (h : IsSuffix suffix) :
    ∃ dots rest, (withSuffix path suffix).toList = (parent path).toList ++
        ((name path).toList ++ (dots ++ '.' :: (suffix.toList ++ rest))) ∧
      (∀ c ∈ dots, c = '.') ∧ (∀ c ∈ rest.head?, c = '.') ∧
      '/' ∉ (name path).toList ++ (dots ++ '.' :: (suffix.toList ++ rest)) := by
  obtain ⟨behind, hbase, hdot, hextension⟩ := baseName_eq_append path
  have hslash := slash_notMem_baseName path.toList
  rw [hbase, List.mem_append, not_or] at hslash
  obtain ⟨hname, hbehind⟩ := hslash
  by_cases hext : extension path = ""
  · have htail : behind.tail = [] := by simpa [hext] using hextension.symm
    have hdots : ∀ c ∈ behind, c = '.' := by
      cases behind with
      | nil => simp
      | cons first behind =>
        obtain rfl : behind = [] := htail
        simpa using hdot
    refine ⟨behind, [], ?_, hdots, by simp, by simp [hname, hbehind, h.slash]⟩
    rw [withSuffix, if_pos hext, String.toList_append, String.toList_append,
      toList_eq_append path, hbase]
    simp
  · have hfree : '/' ∉ (extension path).toList := fun hmem =>
      hbehind (List.mem_of_mem_tail (hextension ▸ hmem))
    refine ⟨[], '.' :: (extension path).toList, ?_, by simp, by simp, by simp [hname, hfree, h.slash]⟩
    rw [withSuffix, if_neg hext]
    simp

/-- The base name of a path with a suffix. -/
theorem baseName_withSuffix (path : String) {suffix : String} (h : IsSuffix suffix) :
    ∃ dots rest, baseName (withSuffix path suffix).toList =
        (name path).toList ++ (dots ++ '.' :: (suffix.toList ++ rest)) ∧
      (∀ c ∈ dots, c = '.') ∧ ∀ c ∈ rest.head?, c = '.' := by
  obtain ⟨dots, rest, hlist, hdots, hrest, hslash⟩ := toList_withSuffix path h
  exact ⟨dots, rest, by rw [hlist, baseName_append path hslash], hdots, hrest⟩

/-- The suffix that was put into a path is found there. -/
theorem suffixOf_withSuffix (path : String) {suffix : String} (h : IsSuffix suffix) :
    suffixOf (withSuffix path suffix) = suffix.toList := by
  obtain ⟨dots, rest, hbase, hdots, hrest⟩ := baseName_withSuffix path h
  have hname : ∀ c ∈ (name path).toList, decide (c ≠ '.') = true := by
    intro c hc
    rw [name, String.toList_ofList] at hc
    exact List.mem_takeWhile_imp (p := fun c => decide (c ≠ '.')) hc
  have hsuffix : ∀ c ∈ suffix.toList, c ≠ '.' := fun c hc heq => h.dot (heq ▸ hc)
  have hfirst : ∀ c ∈ (dots ++ '.' :: (suffix.toList ++ rest)).head?, decide (c ≠ '.') = false := by
    cases dots with
    | nil => simp
    | cons first dots => simpa using hdots first
  have hnext : ∀ c ∈ (suffix.toList ++ rest).head?, decide (c = '.') = false := by
    cases hlist : suffix.toList with
    | nil => exact absurd (String.toList_eq_nil_iff.mp hlist) h.ne_empty
    | cons first others => simpa using hsuffix first (by simp [hlist])
  have hdots : ∀ c ∈ dots ++ ['.'], decide (c = '.') = true := by
    intro c hc
    rcases List.mem_append.mp hc with hc | hc
    · exact decide_eq_true (hdots c hc)
    · exact decide_eq_true (List.mem_singleton.mp hc)
  rw [suffixOf, hbase, dropWhile_append_stop hname hfirst, List.append_cons,
    dropWhile_append_stop hdots hnext,
    takeWhile_append_stop (by simpa using hsuffix) (by simpa using hrest)]

/-- Paths with different suffixes are different. -/
theorem suffix_eq_of_withSuffix_eq {path path' suffix suffix' : String} (h : IsSuffix suffix)
    (h' : IsSuffix suffix') (heq : withSuffix path suffix = withSuffix path' suffix') :
    suffix = suffix' := by
  rw [← String.toList_inj, ← suffixOf_withSuffix path h, heq, suffixOf_withSuffix path' h']

end PathText

namespace Graph

open PathText

/-- Repetitions at different places are told apart. -/
theorem replicaSuffix_inj {serial : Bool} {i j : Nat}
    (h : replicaSuffix serial i = replicaSuffix serial j) : i = j := by
  rw [replicaSuffix, replicaSuffix, String.append_right_inj, Nat.toString_eq_repr,
    Nat.toString_eq_repr, ← String.toList_inj, Nat.toList_repr, Nat.toList_repr] at h
  have hread : ∀ n, Nat.ofDigitChars 10 (Nat.toDigits 10 n) 0 = n := fun n =>
    Nat.ofDigitChars_toDigits (by decide) (by decide)
  rw [← hread i, h, hread]

end Graph

end Pipework
