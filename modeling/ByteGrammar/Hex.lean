import ByteGrammar.Outcome

namespace ByteGrammar.Hex

def digit (value : UInt8) : Char :=
  if value < 10 then Char.ofUInt8 (value + 48) else Char.ofUInt8 (value + 87)

def pushByte (text : String) (byte : UInt8) : String :=
  (text.push (digit (byte >>> 4))).push (digit (byte &&& 15))

-- Two lowercase digits for each byte
def encode (bytes : Bytes) : String := bytes.foldl pushByte ""

end ByteGrammar.Hex
