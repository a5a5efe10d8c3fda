namespace RpcConsole.Text

/-- The pieces between the occurrences of a mark; a text without the mark is one piece. -/
def pieces (mark : Char) (text : String) : List String :=
  (text.toList.splitOn mark).map String.ofList

def startsWith (c : Char) (text : String) : Bool :=
  text.toList.head? == some c

def endsWith (c : Char) (text : String) : Bool :=
  text.toList.getLast? == some c

end RpcConsole.Text
