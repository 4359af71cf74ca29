import Cs252.Http.Connection
import Cs252.Lib.LexicalPath

/-!
# Cs252.Http.DocumentRoot

Which files a request can name.

`parse_respond` puts the document root before every URI, and in most cases
`htdocs` after it, but takes the URI itself as it is. Its `..` components lead
out of the root as soon as they go up far enough: past `icons` and `htdocs` for a
URI that begins with one of these, and one level more for any other.
-/

namespace Cs252.Http

open LexicalPath

/-- What a component does; an empty one and `.` do nothing. -/
def pathStep (component : List UInt8) : Option (PathStep (List UInt8)) :=
  if component = [] ∨ component = ascii "." then none
  else if component = ascii ".." then some .up
  else some (.down component)

/-- The components of a path. -/
def pathSteps (path : List UInt8) : List (PathStep (List UInt8)) :=
  (path.splitOn 47).filterMap pathStep

/-- Where a path leads. -/
def resolvePath (path : CString) : LexicalPath (List UInt8) := resolve (pathSteps path.bytes)

/-- The path leads to the document root, or to something below it. -/
def InDocumentRoot (path : CString) : Prop := (resolvePath path).Within (ascii "http-root-dir")

instance (path : CString) : Decidable (InDocumentRoot path) :=
  inferInstanceAs (Decidable (Within _ _))

/-- The levels between the document root and the directory that a URI is looked up from. -/
def depth (uri : CString) : Nat := if fromRoot uri then 0 else 1

theorem pathSteps_append (xs ys : List UInt8) :
    pathSteps (xs ++ 47 :: ys) = pathSteps xs ++ pathSteps ys := by
  rw [pathSteps, List.splitOn_append_cons_self, List.filterMap_append]
  rfl

/-- A slash at the beginning of a path makes no difference. -/
theorem pathSteps_slash (xs : List UInt8) : pathSteps (47 :: xs) = pathSteps xs :=
  pathSteps_append [] xs

theorem hasPrefix_slash {uri : CString} (h : hasPrefix uri (.lit "/") = true) :
    ∃ rest, uri.bytes = 47 :: rest := by
  obtain ⟨rest, hrest⟩ := List.isPrefixOf_iff_prefix.mp h
  exact ⟨rest, hrest.symm⟩

theorem hasPrefix_slash_of_fromRoot {uri : CString} (h : fromRoot uri = true) :
    hasPrefix uri (.lit "/") = true := by
  refine List.isPrefixOf_iff_prefix.mpr ?_
  rcases Bool.or_eq_true_iff.mp h with h | h
  · exact .trans (by decide) (List.isPrefixOf_iff_prefix.mp h)
  · exact .trans (by decide) (List.isPrefixOf_iff_prefix.mp h)

/-- A path below a directory. -/
theorem resolvePath_append_slash (path : CString) {uri : CString}
    (h : hasPrefix uri (.lit "/") = true) :
    resolvePath (path ++ uri) = resolvePath path ++ resolvePath uri := by
  obtain ⟨rest, hrest⟩ := hasPrefix_slash h
  simp only [resolvePath, CString.append_bytes, hrest, pathSteps_append, pathSteps_slash,
    resolve_append]

/-- Where a request leads: from its directory on along the URI. -/
theorem resolvePath_revisedPath (uri : CString) :
    resolvePath (revisedPath uri) =
      (⟨0, ascii "http-root-dir" :: if fromRoot uri then [] else [ascii "htdocs"]⟩ :
        LexicalPath _) ++ resolvePath uri := by
  have hroot : resolvePath documentRoot = ⟨0, [ascii "http-root-dir"]⟩ := by decide
  have hhtdocs : resolvePath (documentRoot ++ .lit "/htdocs") =
      ⟨0, [ascii "http-root-dir", ascii "htdocs"]⟩ := by decide
  unfold revisedPath
  split
  · next hfrom =>
    rw [resolvePath_append_slash _ (hasPrefix_slash_of_fromRoot hfrom), hroot]
  · split
    · next hslash => rw [resolvePath_append_slash _ hslash, hhtdocs]
    · have hbytes : (documentRoot ++ .lit "/htdocs/" ++ uri).bytes =
          (documentRoot ++ .lit "/htdocs").bytes ++ 47 :: uri.bytes := by
        have hlit : (CString.lit "/htdocs/").bytes = (CString.lit "/htdocs").bytes ++ [47] := by
          decide
        simp only [CString.append_bytes, hlit, List.append_assoc, List.singleton_append]
      rw [← hhtdocs, resolvePath, hbytes, pathSteps_append, resolve_append]
      rfl

/-- **Requests stay in the document root** exactly if their URI does not go up
further than to it, or comes back into it at once. -/
theorem in_document_root_iff (uri : CString) :
    InDocumentRoot (revisedPath uri) ↔
      (resolvePath uri).ups ≤ depth uri ∨
        (resolvePath uri).ups = depth uri + 1 ∧
          (resolvePath uri).names.head? = some (ascii "http-root-dir") := by
  have hdepth : (if fromRoot uri then [] else [ascii "htdocs"]).length = depth uri := by
    unfold depth
    split <;> rfl
  rw [InDocumentRoot, resolvePath_revisedPath, within_append_iff, hdepth]

/-- A request of the file of passwords. -/
theorem passwd_requested :
    ∃ request, readRequest (ascii "GET /../../etc/passwd HTTP/1.1\r\n\r\n") = .ok request ∧
      revisedPath request.requestUri = .lit "./http-root-dir/htdocs/../../etc/passwd" ∧
      resolvePath (revisedPath request.requestUri) = ⟨0, [ascii "etc", ascii "passwd"]⟩ ∧
      ¬InDocumentRoot (revisedPath request.requestUri) := by
  refine ⟨{
    method := .lit "GET"
    requestUri := .lit "/../../etc/passwd"
    httpVersion := .lit "HTTP/1.1"
    headers := []
    messageBody := .lit ""
    query := .lit "" }, ?_, by decide, by decide, by decide⟩
  decide +kernel

end Cs252.Http
