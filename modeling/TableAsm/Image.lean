import TableAsm.Directive

/-! # Images

  The assembler fills named sections with bytes. An `Image` holds the
  sections in the order in which they were first mentioned, and knows
  which one is being filled. It starts with the section `default`.

  - `Image.offset` is the number of bytes in the current section, and
    `Image.address` what a label at this place stands for.
  - `Image.append`, `Image.zeros` and `Image.align` add bytes to the
    current section, `Image.switch` makes another section the current one.
-/

namespace TableAsm

/-- A run of bytes with a name. -/
structure Section where
  name : String
  /-- Label value of the first byte. -/
  base : Word := 0
  bytes : Array UInt8 := #[]
deriving DecidableEq, Repr

/-- The section that is current before any other is named. -/
def Section.defaultName : String := "default"

/-- Sections being filled. -/
structure Image where
  /-- In the order of their first mention. -/
  sections : List Section
  /-- Name of the section being filled. -/
  current : String
deriving DecidableEq, Repr

namespace Image

/-- The image without bytes. -/
def empty : Image := ⟨[{ name := Section.defaultName }], Section.defaultName⟩

/-- The section of this name. -/
def find? (im : Image) (name : String) : Option Section :=
  im.sections.find? (·.name == name)

/-- The section being filled. -/
def here (im : Image) : Section := (im.find? im.current).getD { name := im.current }

/-- Bytes in the section being filled. -/
def offset (im : Image) : Nat := im.here.bytes.size

/-- The label value of the current place, where `unit` bytes count as one. -/
def address (im : Image) (unit : Nat) : Word :=
  BitVec.ofNat 64 (im.offset / unit) + im.here.base

/-- Adds bytes to the current section. -/
def append (im : Image) (bytes : Array UInt8) : Image :=
  { im with sections := im.sections.map fun s =>
      if s.name = im.current then { s with bytes := s.bytes ++ bytes } else s }

/-- Adds zero bytes. -/
def zeros (im : Image) (n : Nat) : Image := im.append (Array.replicate n 0)

/-- Zero bytes that are missing to the next multiple of `n`. -/
def padding (offset n : Nat) : Nat := (n - offset % n) % n

/-- Fills up to a multiple of `n` bytes. -/
def align (im : Image) (n : Nat) : Image := im.zeros (padding im.offset n)

/-- Continues a section, which is new if there is none of this name. -/
def switch (im : Image) (name : String) (base : Option Word) : Image :=
  if (im.find? name).isSome then { im with current := name }
  else ⟨im.sections ++ [{ name, base := base.getD 0 }], name⟩

/-- What a directive does that neither binds a name nor stores data. -/
def place (im : Image) : Directive → Image
  | .section name base => im.switch name base
  | .align n => im.align n
  | .skip n => im.zeros n
  | .equ _ _ => im
  | .data _ _ _ => im

end Image

end TableAsm
