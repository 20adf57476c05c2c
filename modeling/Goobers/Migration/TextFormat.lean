import Goobers.Journal.TextCodec
import Goobers.Migration.Transaction

/-!
# A format that can be run

A digest that spells its text out in letters, and a backup as numbers between braces. A
backup is closed by the only closing brace of its text, so that no part of it is one.
-/

namespace Goobers.Migration

open Lib Lib.Utf8
open Journal (openBrace closeBrace byteNumeral mem_byteNumeral)

theorem letterBase_pos : 0 < 16 := by decide

def letterNumeral : Numeral UInt8 where
  base := 16
  mark := 0x2B
  digit r := UInt8.ofNat (0x61 + r)
  value b := if b.toNat < 0x61 then none else some (b.toNat - 0x61)
  base_pos := letterBase_pos
  value_mark := by decide
  value_digit := by decide

def textDigest (s : Bytes) : Bytes := letterNumeral.write (s.map UInt8.toNat)

theorem textDigest_injective : Function.Injective textDigest := by
  intro s t h
  have hread := congrArg (letterNumeral.read 0) h
  unfold textDigest at hread
  rw [letterNumeral.read_write, letterNumeral.read_write] at hread
  exact List.map_injective_iff.mpr (fun _ _ => UInt8.toNat_inj.mp) hread

theorem textDigest_ascii {s : Bytes} {b : UInt8} (h : b ∈ textDigest s) : b < 0x80 := by
  rcases letterNumeral.mem_write h with rfl | ⟨r, hr, rfl⟩
  · decide
  · have hdigit : ∀ r < 16, UInt8.ofNat (0x61 + r) < 0x80 := by decide
    exact hdigit r hr

instance : Token UInt8 :=
  Token.ofRetract UInt8.toNat UInt8.ofNat (fun _ => UInt8.ofNat_toNat)

instance : Token BackupFile :=
  Token.ofRetract (fun f => (f.path, f.before, f.beforeSHA256, f.afterSHA256, f.mode))
    (fun (p, b, s, t, m) => ⟨p, b, s, t, m⟩) (fun _ => rfl)

instance : Token MigrationBackup :=
  Token.ofRetract (fun b => (b.version, b.files)) (fun (v, fs) => ⟨v, fs⟩) (fun _ => rfl)

/-- A backup with its strings as they come out of a text. -/
def MigrationBackup.written (b : MigrationBackup) : MigrationBackup :=
  { version := b.version, files := b.files.map BackupFile.written }

def textMarshalBackup (b : MigrationBackup) : Bytes :=
  (openBrace :: byteNumeral.write (Token.put b.written)) ++ [closeBrace]

def textDecodeBackup (data : Bytes) : Option MigrationBackup :=
  if data.getLast? = some closeBrace then
    (Token.get (byteNumeral.read 0 data.tail.dropLast)).map Prod.fst
  else none

theorem textDecodeBackup_marshal (b : MigrationBackup) :
    textDecodeBackup (textMarshalBackup b) = some b.written := by
  have h := Token.get_put b.written []
  rw [List.append_nil] at h
  unfold textDecodeBackup textMarshalBackup
  rw [if_pos List.getLast?_concat, List.cons_append, List.tail_cons, List.dropLast_concat,
    byteNumeral.read_write, h]
  rfl

theorem textDecodeBackup_torn {b : MigrationBackup} {data : Bytes}
    (hpart : data <+: textMarshalBackup b) (hne : data ≠ textMarshalBackup b) :
    textDecodeBackup data = none := by
  refine if_neg (fun hlast => ?_)
  -- a part of the text lies before its closing brace
  have hbody : data <+: openBrace :: byteNumeral.write (Token.put b.written) := by
    rcases List.prefix_concat_iff.mp hpart with heq | hbody
    · exact absurd heq hne
    · exact hbody
  have hmem := hbody.subset (List.mem_of_getLast? hlast)
  rcases List.mem_cons.mp hmem with h | h
  · exact absurd h (by decide)
  · rcases mem_byteNumeral h with h | h <;> exact absurd h (by decide)

def textFormat : Format where
  digest := textDigest
  digest_injective := textDigest_injective
  digest_valid _ := validString_of_ascii (fun _ => textDigest_ascii)
  isDigest _ := true
  isDigest_digest _ := rfl
  marshal := textMarshalBackup
  decode := textDecodeBackup
  decode_marshal := textDecodeBackup_marshal
  decode_torn _ _ := textDecodeBackup_torn

end Goobers.Migration
