/-! The text of a log. -/

namespace ClassCheck.Log

def line (message : String) : String :=
  if message.toList.getLast? = some '\n' then message else message ++ "\n"

def text (messages : List String) : String := String.join (messages.map line)

end ClassCheck.Log
