import ByteGrammar.Parser.Many

namespace ByteGrammar.Format

open ByteGrammar.Parser

variable {ν : Type}

-- A byte at which the closing text does not begin
def bodyByte (closing : Bytes) : Parser ν UInt8 :=
  (both (notFollowedBy (literal closing)) anyByte).map Prod.snd

-- Text between two delimiters, up to the first place where the closing one stands
def delimited (storage : Storage UInt8) (opening closing : Bytes) : Parser ν Bytes :=
  between (literal opening)
    (roundPerByte fun rounds => many rounds storage (bodyByte closing))
    (literal closing)

-- "/*" and "*/"
def comment : Parser ν Bytes := delimited .arena [47, 42] [42, 47]

end ByteGrammar.Format
