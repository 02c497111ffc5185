import Ecopy.PathText
import Ecopy.Traversal.DestinationRoot

/-!
# Prefixes of paths

Confinement on the server, the refusal of overlapping roots and the walk into a destination
below the source each have their own test for a path within another. All three compare texts
and look at the byte behind the shorter one. On normalised paths that is the comparison of
the components: a separator can only stand where a component ends.

The root directory is a case of its own in each of them, and the walker's test differs there:
it does not count `/` as within itself.
-/
namespace Ecopy.Traversal
open Protocol (Bytes)
open Ecopy.Path
open Lib.Fields

def pathIsUnderRoot (path root : Bytes) : Bool :=
  if root = [slash] then path != [slash]
  else root.isPrefixOf path &&
    match path.drop root.length with
    | [] => true
    | b :: _ => b == slash

/-- Apart from the root directory the walker's test is the server's. -/
theorem pathIsUnderRoot_eq {path root : Bytes} (h : root ≠ [slash]) :
    pathIsUnderRoot path root = pathUnderRoot root path := by
  unfold pathIsUnderRoot pathUnderRoot
  rewrite [if_neg h, if_neg h]
  rfl

section Normal
variable {base path : Bytes}

theorem pathUnderRoot_normal (hbase : Normal base) (hpath : Normal path) :
    pathUnderRoot base path = true ↔ fields slash base <+: fields slash path := by
  have h := pathUnderRoot_iff hbase.ordinary hpath.ordinary
  rwa [← hbase.eq_render, ← hpath.eq_render] at h

theorem isSameOrChildPath_normal (hbase : Normal base) (hpath : Normal path) :
    isSameOrChildPath base path = true ↔ fields slash base <+: fields slash path := by
  have h := isSameOrChildPath_iff hbase.ordinary hpath.ordinary
  rwa [← hbase.eq_render, ← hpath.eq_render] at h

theorem pathIsUnderRoot_normal (hbase : Normal base) (hpath : Normal path) (h : base ≠ [slash]) :
    pathIsUnderRoot path base = true ↔ fields slash base <+: fields slash path := by
  rw [pathIsUnderRoot_eq h]
  exact pathUnderRoot_normal hbase hpath

theorem not_prefix_of_sibling {dir rest : List Bytes} {a b : Bytes} (h : a ≠ b) :
    ¬ dir ++ [a] <+: dir ++ b :: rest := by
  rw [List.prefix_append_right_inj, List.cons_prefix_cons]
  exact fun hab => h hab.1

/-- The three tests on normalised paths are the comparison of components; an entry next to the
base is outside of it, also where one name continues the other. -/
theorem prefix_tests_agree (hbase : Normal base) (hpath : Normal path) :
    (pathUnderRoot base path = true ↔ fields slash base <+: fields slash path) ∧
      (isSameOrChildPath base path = true ↔ fields slash base <+: fields slash path) ∧
      (base ≠ [slash] →
        (pathIsUnderRoot path base = true ↔ fields slash base <+: fields slash path)) ∧
      pathUnderRoot base path = isSameOrChildPath base path ∧
      (base ≠ [slash] → pathIsUnderRoot path base = isSameOrChildPath base path) ∧
      ∀ dir a b rest, fields slash base = dir ++ [a] → fields slash path = dir ++ b :: rest →
        a ≠ b → pathUnderRoot base path = false ∧ isSameOrChildPath base path = false ∧
          pathIsUnderRoot path base = false := by
  have hserver := pathUnderRoot_normal hbase hpath
  have hmain := isSameOrChildPath_normal hbase hpath
  refine ⟨hserver, hmain, pathIsUnderRoot_normal hbase hpath, ?_, ?_, ?_⟩
  · rw [Bool.eq_iff_iff, hserver, hmain]
  · intro hne
    rw [Bool.eq_iff_iff, pathIsUnderRoot_normal hbase hpath hne, hmain]
  · intro dir a b rest hdir hsibling hab
    have hne : base ≠ [slash] := by
      rintro rfl
      exact List.append_ne_nil_of_right_ne_nil dir (List.cons_ne_nil a []) hdir.symm
    rw [hdir, hsibling] at hserver hmain
    have hwalker := pathIsUnderRoot_normal hbase hpath hne
    rw [hdir, hsibling] at hwalker
    exact ⟨Bool.eq_false_iff.mpr fun h => not_prefix_of_sibling hab (hserver.mp h),
      Bool.eq_false_iff.mpr fun h => not_prefix_of_sibling hab (hmain.mp h),
      Bool.eq_false_iff.mpr fun h => not_prefix_of_sibling hab (hwalker.mp h)⟩

end Normal

/-- `/a` against `/ab`. -/
theorem prefix_tests_agree_sibling :
    pathUnderRoot [47, 97] [47, 97, 98] = false ∧ isSameOrChildPath [47, 97] [47, 97, 98] = false ∧
      pathIsUnderRoot [47, 97, 98] [47, 97] = false := by
  have hbase : Normal [47, 97] := ⟨by decide, by decide, by decide, by decide⟩
  have hpath : Normal [47, 97, 98] := ⟨by decide, by decide, by decide, by decide⟩
  exact (prefix_tests_agree hbase hpath).2.2.2.2.2 [] [97] [97, 98] [] (by decide) (by decide)
    (by decide)

end Ecopy.Traversal
