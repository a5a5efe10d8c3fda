namespace RpcConsole

structure Position where
  line : Nat
  column : Nat
  deriving Repr, DecidableEq, Inhabited

namespace Position

def prefixAt? : List Char → Nat → Option (List Char)
  | _, 0 => some []
  | [], _ + 1 => none
  | c :: cs, n + 1 =>
    if c.utf8Size ≤ n + 1 then (prefixAt? cs (n + 1 - c.utf8Size)).map (c :: ·) else none

def after (before : List Char) : Position :=
  ⟨before.count '\n' + 1, (before.reverse.takeWhile (· != '\n')).length + 1⟩

/-- The position of a byte offset. An offset that is not between two characters of `source` is
shown as the end of `source`. -/
def locate (source : List Char) (offset : Nat) : Position :=
  after ((prefixAt? source offset).getD source)

end Position
end RpcConsole
