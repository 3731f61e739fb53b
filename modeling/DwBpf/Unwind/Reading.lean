import DwBpf.Dso.Opening
import DwBpf.Unwind.Libunwind

/-! # Reading the data of a dso for the unwinder

The words and the header of `.eh_frame_hdr` that the callbacks take from a dso.
Each of these reads returns exactly when the file is open or can be opened.
-/

namespace DwBpf

variable {os : Os} {elf : ElfAnswers} {data : DsoData}

open DsoData

theorem DsoData.readBytes_returns (dormant : data.Dormant) (offset : U64) {size : Nat}
    (small : size < 2 ^ 63) : Returns os data (data.readBytes os offset size) := by
  refine ⟨fun openable => ?_, fun cannot => (readOffset_fails dormant cannot offset size).bind _⟩
  obtain ⟨count, bytes, next, ran, nextDormant, nextOpenable⟩ :=
    readOffset_ok dormant openable offset small
  rw [readBytes, ran]
  exact ⟨(count, bytes), next, rfl, nextDormant, nextOpenable⟩

theorem unwindSpecEhframe_returns (dormant : data.Dormant) (offset : U64) :
    Returns os data (unwindSpecEhframe os elf offset data) := by
  refine (readBytes_returns dormant offset (by decide)).bind ?_
  rintro ⟨count, hdr⟩ next nextDormant nextOpenable
  dsimp only
  split
  · exact returns_pure nextDormant nextOpenable _
  · exact returns_pure nextDormant nextOpenable _

/-- The offset kept is that of a section of an open file. -/
theorem ehFrameHdrOffset_returns (dormant : data.Dormant) :
    Returns os data (ehFrameHdrOffset os elf data) := by
  unfold ehFrameHdrOffset
  refine ⟨fun openable => ?_, fun cannot => ?_⟩
  · split
    · exact ⟨_, data, rfl, dormant, openable⟩
    · obtain ⟨fd, next, ran, nextDormant, nextOpenable, isOpen⟩ := getFd_ok dormant openable
      rw [ran, ok_bind]
      dsimp only
      split
      · exact ⟨_, next, rfl, nextDormant, nextOpenable⟩
      · rename_i known
        exact ⟨_, _, rfl, dormant_of_open (isOpen known), .inl (isOpen known)⟩
  · rw [if_neg (not_not_intro (dormant.usable cannot).2.2)]
    exact (getFd_fails dormant cannot).bind _

theorem readUnwindSpecEhFrame_returns (dormant : data.Dormant) :
    Returns os data (readUnwindSpecEhFrame os elf data) := by
  refine (ehFrameHdrOffset_returns dormant).bind ?_
  intro found next nextDormant nextOpenable
  cases found with
  | none => exact returns_pure nextDormant nextOpenable none
  | some offset =>
      dsimp only
      split
      · exact returns_pure nextDormant nextOpenable none
      · exact unwindSpecEhframe_returns nextDormant offset

end DwBpf
