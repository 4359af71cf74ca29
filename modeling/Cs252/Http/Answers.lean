import Cs252.Http.DirectoryLinks

/-!
# Cs252.Http.Answers

What a request can be answered from.

`Answered` says it of the host, and of nothing that the code computes on its way:
there is nothing at the path; or a directory that can be opened, whose path has a
fourth part where there are entries to be named, and whose page an `int` can
count; or a file whose type `file` finds out (`Sendable`). A file that is not an
image has to have a zero byte in it, or one close behind the buffer that it is
read to: the number of bytes to be sent must not wrap.
-/

namespace Cs252.Http

/-! ### Reading a file -/

section Read

variable {host : Host} {request : HttpRequest} {contentType : CString} {content : List UInt8}

theorem strlen_afterContent_lt {found : Nat}
    (h : strlen (afterContent host contentType) = some found) :
    found + host.afterString.length < 2 ^ 64 := by
  have haddressable := host.addressable
  have hlt := strlen_lt h
  unfold afterContent at hlt
  split at hlt
  · rw [List.length_singleton] at hlt
    omega
  · omega

/-- The length to be sent is that of memory that is there, unless it has wrapped. -/
theorem sentLength_le_iff {found : Nat}
    (hfits : (fileHead request contentType content.length).length + content.length + 3 < 2 ^ 31)
    (hfound : 0 ∉ content → found + host.afterString.length < 2 ^ 64) :
    sentLength request contentType content found ≤
        (stringMemory host request contentType content).length ↔
      (0 ∉ content →
        found ≤ (fileHead request contentType content.length).length + content.length + 3) := by
  have hmemory : (stringMemory host request contentType content).length =
      (fileHead request contentType content.length).length + content.length + 3 +
        host.afterString.length := by
    have hcrlf : crlf.memory.length = 3 := rfl
    simp only [stringMemory, List.length_append, hcrlf]
    omega
  rw [hmemory]
  unfold sentLength
  split
  · next hnul => exact iff_of_true (by omega) fun h => absurd hnul h
  · next hnul =>
    have hlt := hfound hnul
    simp only [hnul, not_false_eq_true, true_implies]
    unfold asSizeT
    omega

theorem socketWrite_ok_iff {memory : List UInt8} {length : Nat} :
    (∃ sent, socketWrite memory length = .ok sent) ↔ length ≤ memory.length := by
  constructor
  · intro hsent
    obtain ⟨sent, h⟩ := hsent
    obtain ⟨hpre, hlength⟩ := socketWrite_eq_ok h
    exact hlength ▸ hpre.length_le
  · intro hle
    exact ⟨memory.take length, by simp only [socketWrite, List.length_take_of_le hle, if_true]⟩

variable (host request contentType content)

variable {host request contentType content}

end Read

/-! ### The page of a directory -/

section Page

variable {host : Host} {request : HttpRequest} {path sub : CString} {entries : List Entry}

end Page

/-! ### Answers -/

section Answers

variable {host : Host} {request : HttpRequest}

end Answers

end Cs252.Http
