import RpcConsole.Schema.Name
import RpcConsole.Schema.Declaration

namespace RpcConsole

namespace MessageDecl

mutual

/-- A message and the messages inside it, with their full names. -/
def within (scope : String) : MessageDecl → List (String × MessageDecl)
  | ⟨name, fields, extensions, nested, enums, ranges, oneofs, reserved, reservedNames, options⟩ =>
    (Name.join scope name,
        ⟨name, fields, extensions, nested, enums, ranges, oneofs, reserved, reservedNames,
          options⟩) ::
      withinAll (Name.join scope name) nested

def withinAll (scope : String) : List MessageDecl → List (String × MessageDecl)
  | [] => []
  | m :: ms => within scope m ++ withinAll scope ms

end

theorem within_eq (scope : String) (m : MessageDecl) :
    within scope m =
      (Name.join scope m.name, m) :: withinAll (Name.join scope m.name) m.nested := by
  cases m
  rw [within]

@[simp] theorem withinAll_nil (scope : String) : withinAll scope [] = [] := by
  rw [withinAll]

@[simp] theorem withinAll_cons (scope : String) (m : MessageDecl) (ms : List MessageDecl) :
    withinAll scope (m :: ms) = within scope m ++ withinAll scope ms := by
  rw [withinAll]

@[simp] theorem withinAll_append (scope : String) (ms ns : List MessageDecl) :
    withinAll scope (ms ++ ns) = withinAll scope ms ++ withinAll scope ns := by
  induction ms with
  | nil => simp
  | cons m ms ih => simp [ih]

/-- All messages have a property, those inside others too. -/
def Everywhere (P : MessageDecl → Prop) (ms : List MessageDecl) : Prop :=
  ∀ scope, ∀ p ∈ withinAll scope ms, P p.2

variable {P : MessageDecl → Prop}

theorem Everywhere.nil : Everywhere P [] := by
  simp [Everywhere]

theorem Everywhere.append {ms ns : List MessageDecl} (hm : Everywhere P ms)
    (hn : Everywhere P ns) : Everywhere P (ms ++ ns) := by
  intro scope p hp
  rw [withinAll_append] at hp
  rcases List.mem_append.mp hp with hp | hp
  · exact hm scope p hp
  · exact hn scope p hp

theorem Everywhere.single {m : MessageDecl} (hm : P m) (hn : Everywhere P m.nested) :
    Everywhere P [m] := by
  intro scope p hp
  rw [withinAll_cons, within_eq, withinAll_nil, List.append_nil] at hp
  rcases List.mem_cons.mp hp with rfl | hp
  · exact hm
  · exact hn _ p hp

end MessageDecl

namespace FileDecl

/-- All messages of a file with their full names. -/
def allMessages (f : FileDecl) : List (String × MessageDecl) :=
  MessageDecl.withinAll f.packageName f.messages

/-- The full names of the messages that a file declares. -/
def messageNames (f : FileDecl) : List String :=
  f.allMessages.map Prod.fst

end FileDecl
end RpcConsole
