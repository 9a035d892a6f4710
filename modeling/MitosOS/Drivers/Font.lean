import Mathlib.Data.Nat.Notation

/-! The 8x8 font of `graphics.rs`. -/
namespace MitosOS.Drivers

abbrev Glyph := Vector (BitVec 8) 8

def glyph (a b c d e f g h : BitVec 8) : Glyph := #v[a, b, c, d, e, f, g, h]

def blankGlyph : Glyph := Vector.replicate 8 0

def font8x8 : Vector Glyph 128 := #v[
  blankGlyph, blankGlyph, blankGlyph, blankGlyph, blankGlyph, blankGlyph, blankGlyph, blankGlyph,
  blankGlyph, blankGlyph, blankGlyph, blankGlyph, blankGlyph, blankGlyph, blankGlyph, blankGlyph,
  blankGlyph, blankGlyph, blankGlyph, blankGlyph, blankGlyph, blankGlyph, blankGlyph, blankGlyph,
  blankGlyph, blankGlyph, blankGlyph, blankGlyph, blankGlyph, blankGlyph, blankGlyph, blankGlyph,
  glyph 0x00 0x00 0x00 0x00 0x00 0x00 0x00 0x00,
  glyph 0x18 0x18 0x18 0x18 0x18 0x00 0x18 0x00,
  glyph 0x66 0x66 0x22 0x00 0x00 0x00 0x00 0x00,
  glyph 0x24 0x7E 0x24 0x24 0x7E 0x24 0x00 0x00,
  glyph 0x10 0x3C 0x50 0x38 0x14 0x78 0x10 0x00,
  glyph 0x63 0x33 0x18 0x0C 0x66 0x63 0x00 0x00,
  glyph 0x30 0x48 0x30 0x5A 0x44 0x3A 0x00 0x00,
  glyph 0x18 0x18 0x08 0x00 0x00 0x00 0x00 0x00,
  glyph 0x0C 0x18 0x30 0x30 0x30 0x18 0x0C 0x00,
  glyph 0x30 0x18 0x0C 0x0C 0x0C 0x18 0x30 0x00,
  glyph 0x00 0x24 0x18 0x7E 0x18 0x24 0x00 0x00,
  glyph 0x00 0x08 0x08 0x3E 0x08 0x08 0x00 0x00,
  glyph 0x00 0x00 0x00 0x00 0x18 0x18 0x08 0x00,
  glyph 0x00 0x00 0x00 0x3E 0x00 0x00 0x00 0x00,
  glyph 0x00 0x00 0x00 0x00 0x18 0x18 0x00 0x00,
  glyph 0x02 0x04 0x08 0x10 0x20 0x40 0x80 0x00,
  glyph 0x3C 0x66 0x66 0x66 0x66 0x66 0x3C 0x00,
  glyph 0x18 0x38 0x18 0x18 0x18 0x18 0x7E 0x00,
  glyph 0x3C 0x66 0x06 0x1C 0x30 0x60 0x7E 0x00,
  glyph 0x3C 0x66 0x06 0x1C 0x06 0x66 0x3C 0x00,
  glyph 0x0C 0x1C 0x3C 0x6C 0x7E 0x0C 0x0C 0x00,
  glyph 0x7E 0x60 0x7C 0x06 0x06 0x66 0x3C 0x00,
  glyph 0x3C 0x60 0x7C 0x66 0x66 0x66 0x3C 0x00,
  glyph 0x7E 0x06 0x0C 0x18 0x30 0x30 0x30 0x00,
  glyph 0x3C 0x66 0x66 0x3C 0x66 0x66 0x3C 0x00,
  glyph 0x3C 0x66 0x66 0x3E 0x06 0x0C 0x38 0x00,
  glyph 0x00 0x18 0x18 0x00 0x18 0x18 0x00 0x00,
  glyph 0x00 0x18 0x18 0x00 0x18 0x18 0x08 0x00,
  glyph 0x06 0x0C 0x18 0x30 0x18 0x0C 0x06 0x00,
  glyph 0x00 0x00 0x3E 0x00 0x3E 0x00 0x00 0x00,
  glyph 0x30 0x18 0x0C 0x06 0x0C 0x18 0x30 0x00,
  glyph 0x3C 0x66 0x06 0x1C 0x18 0x00 0x18 0x00,
  glyph 0x3C 0x66 0x6E 0x6A 0x6E 0x60 0x3C 0x00,
  glyph 0x18 0x3C 0x66 0x66 0x7E 0x66 0x66 0x00,
  glyph 0x7C 0x66 0x66 0x7C 0x66 0x66 0x7C 0x00,
  glyph 0x3C 0x66 0x60 0x60 0x60 0x66 0x3C 0x00,
  glyph 0x78 0x6C 0x66 0x66 0x66 0x6C 0x78 0x00,
  glyph 0x7E 0x60 0x60 0x7C 0x60 0x60 0x7E 0x00,
  glyph 0x7E 0x60 0x60 0x7C 0x60 0x60 0x60 0x00,
  glyph 0x3C 0x66 0x60 0x6E 0x66 0x66 0x3C 0x00,
  glyph 0x66 0x66 0x66 0x7E 0x66 0x66 0x66 0x00,
  glyph 0x3C 0x18 0x18 0x18 0x18 0x18 0x3C 0x00,
  glyph 0x1E 0x0C 0x0C 0x0C 0x0C 0x6C 0x38 0x00,
  glyph 0x66 0x6C 0x78 0x70 0x78 0x6C 0x66 0x00,
  glyph 0x60 0x60 0x60 0x60 0x60 0x60 0x7E 0x00,
  glyph 0x63 0x77 0x7F 0x6B 0x63 0x63 0x63 0x00,
  glyph 0x66 0x76 0x7E 0x6E 0x66 0x66 0x66 0x00,
  glyph 0x3C 0x66 0x66 0x66 0x66 0x66 0x3C 0x00,
  glyph 0x7C 0x66 0x66 0x7C 0x60 0x60 0x60 0x00,
  glyph 0x3C 0x66 0x66 0x66 0x6A 0x3C 0x0A 0x00,
  glyph 0x7C 0x66 0x66 0x7C 0x78 0x6C 0x66 0x00,
  glyph 0x3C 0x66 0x60 0x3C 0x06 0x66 0x3C 0x00,
  glyph 0x7E 0x18 0x18 0x18 0x18 0x18 0x18 0x00,
  glyph 0x66 0x66 0x66 0x66 0x66 0x66 0x3C 0x00,
  glyph 0x66 0x66 0x66 0x66 0x66 0x3C 0x18 0x00,
  glyph 0x63 0x63 0x63 0x6B 0x7F 0x77 0x63 0x00,
  glyph 0x66 0x66 0x3C 0x18 0x3C 0x66 0x66 0x00,
  glyph 0x66 0x66 0x66 0x3C 0x18 0x18 0x18 0x00,
  glyph 0x7E 0x06 0x0C 0x18 0x30 0x60 0x7E 0x00,
  glyph 0x3C 0x30 0x30 0x30 0x30 0x30 0x3C 0x00,
  glyph 0x40 0x20 0x10 0x08 0x04 0x02 0x01 0x00,
  glyph 0x3C 0x0C 0x0C 0x0C 0x0C 0x0C 0x3C 0x00,
  glyph 0x08 0x1C 0x36 0x63 0x00 0x00 0x00 0x00,
  glyph 0x00 0x00 0x00 0x00 0x00 0x00 0x00 0xFF,
  glyph 0x18 0x18 0x0C 0x00 0x00 0x00 0x00 0x00,
  glyph 0x00 0x00 0x3C 0x06 0x3E 0x66 0x3E 0x00,
  glyph 0x60 0x60 0x7C 0x66 0x66 0x66 0x7C 0x00,
  glyph 0x00 0x00 0x3C 0x60 0x60 0x60 0x3C 0x00,
  glyph 0x06 0x06 0x3E 0x66 0x66 0x66 0x3E 0x00,
  glyph 0x00 0x00 0x3C 0x66 0x7E 0x60 0x3C 0x00,
  glyph 0x1C 0x30 0x7E 0x30 0x30 0x30 0x30 0x00,
  glyph 0x00 0x00 0x3E 0x66 0x66 0x3E 0x06 0x3C,
  glyph 0x60 0x60 0x7C 0x66 0x66 0x66 0x66 0x00,
  glyph 0x18 0x00 0x38 0x18 0x18 0x18 0x3C 0x00,
  glyph 0x06 0x00 0x06 0x06 0x06 0x66 0x3C 0x00,
  glyph 0x60 0x60 0x6C 0x78 0x70 0x6C 0x66 0x00,
  glyph 0x38 0x18 0x18 0x18 0x18 0x18 0x3C 0x00,
  glyph 0x00 0x00 0xEC 0x7F 0x6B 0x6B 0x63 0x00,
  glyph 0x00 0x00 0x7C 0x66 0x66 0x66 0x66 0x00,
  glyph 0x00 0x00 0x3C 0x66 0x66 0x66 0x3C 0x00,
  glyph 0x00 0x00 0x7C 0x66 0x66 0x7C 0x60 0x60,
  glyph 0x00 0x00 0x3E 0x66 0x66 0x3E 0x06 0x06,
  glyph 0x00 0x00 0x7C 0x66 0x60 0x60 0x60 0x00,
  glyph 0x00 0x00 0x3C 0x60 0x3C 0x06 0x3C 0x00,
  glyph 0x30 0x30 0x7E 0x30 0x30 0x30 0x1C 0x00,
  glyph 0x00 0x00 0x66 0x66 0x66 0x66 0x3E 0x00,
  glyph 0x00 0x00 0x66 0x66 0x66 0x3C 0x18 0x00,
  glyph 0x00 0x00 0x63 0x6B 0x7F 0x7F 0x36 0x00,
  glyph 0x00 0x00 0x66 0x3C 0x18 0x3C 0x66 0x00,
  glyph 0x00 0x00 0x66 0x66 0x66 0x3E 0x06 0x3C,
  glyph 0x00 0x00 0x7E 0x0C 0x18 0x30 0x7E 0x00,
  glyph 0x0E 0x18 0x18 0x70 0x18 0x18 0x0E 0x00,
  glyph 0x18 0x18 0x18 0x18 0x18 0x18 0x18 0x00,
  glyph 0x70 0x18 0x18 0x0E 0x18 0x18 0x70 0x00,
  glyph 0x76 0xDC 0x00 0x00 0x00 0x00 0x00 0x00,
  glyph 0x00 0x10 0x38 0x6C 0xC6 0xFE 0x00 0x00]

end MitosOS.Drivers
