import Recompile.FileTree

/-!
# What a build sees of the disk

A build asks two things of the disk: whether a path names a regular file, and what a file holds. A
`Disk` is the answers, which stay the same during one build. The two are independent, as a file that
is there may still be unreadable. `FileTree.disk` is the disk that a tree gives.
-/

namespace Recompile

structure Disk where
  isFile : Path → Bool
  read : Path → Except FileError Bytes

def FileTree.disk (t : FileTree) : Disk := ⟨t.isFile, t.read⟩

/-- How many names that need no folding the files of a tree have at most: an absolute one each, and
one for every number of `..` that it may begin with, which is bounded by the length of a path. -/
def FileTree.nameCount (t : FileTree) : Nat := (pathLimit / 3 + 2) * t.files.length

end Recompile
