import ByteGrammar.Grammar.Basic

namespace ByteGrammar.Grammar

-- The rule of a name in a list of rules. A name without a rule matches nothing.
def ofRules (rules : List (String × Grammar String)) (name : String) : Grammar String :=
  (rules.lookup name).getD (.primitive .never)

end ByteGrammar.Grammar
