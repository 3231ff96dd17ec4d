import LogCodec.Reader.Source

/-! # Buffered files

    A file is read through a buffer of `blockSize` bytes.  What the buffer holds
    is given first, and alone.  When it is empty, a read with room for a whole
    block goes to the file at once, and a read with less room fills the buffer.

    - `Source.ofContents`: the source that gives the contents of a file in this
      way. -/

namespace LogCodec

/-- The size of the buffers of files. -/
def blockSize : Nat := 8 * 1024

/-- The buffer of a file that is read. -/
structure FileBuffer where
  /-- Bytes that the buffer holds. -/
  held : Nat
  /-- Bytes of the file that were not read. -/
  left : Nat
deriving DecidableEq

namespace FileBuffer

/-- Gives from what the buffer holds. -/
def give (b : FileBuffer) (room : Nat) : Source.Turn × FileBuffer :=
  let size := min b.held room
  (⟨0, .give size⟩, { b with held := b.held - size })

/-- Reads a block into the buffer. -/
def fill (b : FileBuffer) : FileBuffer :=
  let size := min b.left blockSize
  ⟨size, b.left - size⟩

/-- One read. -/
def step (b : FileBuffer) (room : Nat) : Source.Turn × FileBuffer :=
  if 0 < b.held then b.give room
  else if room < blockSize then b.fill.give room
  else
    let size := min b.left room
    (⟨0, .give size⟩, { b with left := b.left - size })

end FileBuffer

/-- The source that gives the contents of a file through a buffer. -/
def Source.ofContents (c : Contents) : Source where
  data := c.data
  plan := planFrom FileBuffer.step ⟨0, c.data.length⟩
  offered := []
  ending := c.failure

end LogCodec
