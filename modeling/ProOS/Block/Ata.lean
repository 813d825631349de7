import ProOS.Block.Device

/-! The ATA driver (`ata_module.c`) and the BIOS fallback: which sectors a request moves, and to where in the buffer. -/

namespace ProOS.Block

open ProOS.Framework List

/-- What the driver writes to the registers before a command. -/
structure Registers where
  hddevsel : UInt8
  seccount0 : UInt8
  lba0 : UInt8
  lba1 : UInt8
  lba2 : UInt8
deriving DecidableEq, Repr

/-- `ata_select` and the writes that follow it. -/
def ataSetup (slave : UInt8) (lba : UInt64) (chunk : Nat) : Registers where
  hddevsel := UInt8.ofNat (0xE0 ||| slave.toNat * 16 ||| lba.toNat / 2 ^ 24 % 16)
  seccount0 := UInt8.ofNat chunk
  lba0 := UInt8.ofNat lba.toNat
  lba1 := UInt8.ofNat (lba.toNat / 2 ^ 8)
  lba2 := UInt8.ofNat (lba.toNat / 2 ^ 16)

/-- The sector that the drive starts with: it has 28 bits of the address. -/
def Registers.sector (r : Registers) : Nat :=
  r.lba0.toNat + 2 ^ 8 * r.lba1.toNat + 2 ^ 16 * r.lba2.toNat + 2 ^ 24 * (r.hddevsel.toNat % 16)

/-- `count` sectors from `first` on, to or from the buffer from `offset` on: a sector and its place, in order. -/
def run (first count offset : Nat) : List (Nat × Nat) := (List.range count).map (fun i => (first + i, offset + 512 * i))

end ProOS.Block
