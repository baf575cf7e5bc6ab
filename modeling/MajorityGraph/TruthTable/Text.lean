import MajorityGraph.TruthTable.Basic

/-! Written forms of a truth table: hexadecimal, and an FNV-1a digest for wide tables. -/

namespace MajorityGraph.TruthTable

/-- Hexadecimal digits of `v`, lowercase, left-padded with zeros to at least `width`. -/
def hexPadded (width v : Nat) : String :=
  let ds := Nat.toDigits 16 v
  String.ofList (List.replicate (width - ds.length) '0' ++ ds)

/-- A storage word as sixteen hexadecimal digits. -/
def wordHex (w : UInt64) : String := hexPadded 16 w.toNat

/-- The table's value in hexadecimal: `max (2 ^ n / 4) 1` lowercase digits, the last one
holding bits 0 to 3. Tables over up to two variables share one digit with zero high bits. The
digits are the storage words written out, highest word first, cut to the table's length. -/
def toHex (t : TruthTable) : String :=
  let digits := max (t.numBits / 4) 1
  let all := String.join (t.words.toList.reverse.map wordHex)
  String.ofList (all.toList.drop (all.length - digits))

/-- The table with its width, as `TruthTable(n, 0x…)`. -/
def debugText (t : TruthTable) : String :=
  "TruthTable(" ++ toString t.numVars ++ ", 0x" ++ t.toHex ++ ")"

/-- The FNV-1a offset basis. -/
def fnvOffset : UInt64 := 0xcbf29ce484222325

/-- The FNV-1a prime. -/
def fnvPrime : UInt64 := 0x100000001b3

/-- Folds the eight bytes of a word, lowest first, into an FNV-1a state. -/
def fnvWord (h w : UInt64) : UInt64 :=
  (List.range 8).foldl (fun acc k => (acc ^^^ ((w >>> (8 * k).toUInt64) &&& 0xFF)) * fnvPrime) h

/-- FNV-1a over the storage words, word 0 first, each as eight little-endian bytes. -/
def digest (t : TruthTable) : UInt64 := t.words.foldl fnvWord fnvOffset

end MajorityGraph.TruthTable
