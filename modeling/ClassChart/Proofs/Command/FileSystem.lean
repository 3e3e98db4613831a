/-
# ClassChart.Proofs.Command.FileSystem — what a file system promises

A run may be carried out on any file system, so little can be said of what its requests do. The one thing
that everybody relies on is that a file that was written is there and that the other files are as they
were. `LawfulFileSystem` says so, in terms of what stands at a path; paths that lead to the same place are
not kept apart. A disk keeps the promise.
-/
import ClassChart.Command.FileSystem
import ClassChart.Proofs.Disk

namespace ClassChart

/-- A file system where a write that succeeds is seen at its place and nowhere else. -/
class LawfulFileSystem (σ : Type) [FileSystem σ] where
  /-- What stands at a path. -/
  content : σ → String → Content
  /-- Whether two paths lead to the same place. -/
  Meets : σ → String → String → Prop
  content_write : ∀ {s s' : σ} {path text : String}, FileSystem.write s path text = (.ok (), s') →
    content s' path = .file text.toUTF8
  content_other : ∀ {s s' : σ} {path text other : String},
    FileSystem.write s path text = (.ok (), s') → ¬ Meets s other path → content s' other = content s other

/-- The second state is what writing the text to the path made of the first: the text is the file there,
and at every other place stands what stood there before. -/
structure Gains {σ : Type} [FileSystem σ] [LawfulFileSystem σ] (s s' : σ) (path text : String) : Prop where
  written : FileSystem.write s path text = (.ok (), s')
  content_eq : LawfulFileSystem.content s' path = .file text.toUTF8
  content_other : ∀ other, ¬ LawfulFileSystem.Meets s other path →
    LawfulFileSystem.content s' other = LawfulFileSystem.content s other

theorem gains_of_write {σ : Type} [FileSystem σ] [LawfulFileSystem σ] {s s' : σ} {path text : String}
    (h : FileSystem.write s path text = (.ok (), s')) : Gains s s' path text :=
  ⟨h, LawfulFileSystem.content_write h, fun _ => LawfulFileSystem.content_other h⟩

/-! ## Disks -/

namespace Disk

theorem write_eq (d : Disk) (path text : String) :
    FileSystem.write d path text = match d.write path text.toUTF8 with
      | .ok written => (.ok (), written)
      | .error error => (.error error, d) := rfl

theorem write_of_fileSystem {d d' : Disk} {path text : String}
    (h : FileSystem.write d path text = (.ok (), d')) : d.write path text.toUTF8 = .ok d' := by
  rw [write_eq] at h
  split at h
  · rename_i written hwrite
    rw [hwrite, (Prod.mk.inj h).2]
  · cases h

/-- Paths lead to the same place of a disk if they come down to the same names. -/
instance : LawfulFileSystem Disk where
  content := content
  Meets d other path := names (d.fromRoot other) = names (d.fromRoot path)
  content_write h := (Disk.gains_of_write (write_of_fileSystem h)).content_eq
  content_other h := (Disk.gains_of_write (write_of_fileSystem h)).content_other _

/-- A disk that cannot be written to stays as it is. -/
theorem eq_of_write_error {d d' : Disk} {path text : String} {error : SystemError}
    (h : FileSystem.write d path text = (.error error, d')) : d' = d := by
  rw [write_eq] at h
  split at h
  · cases h
  · exact (Prod.mk.inj h).2.symm

end Disk

end ClassChart
