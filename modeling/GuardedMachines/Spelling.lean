/-!
The canonical spellings of the connectives, used wherever a condition, a clause
or a literal is written out.
-/

namespace GuardedMachines.Spelling

def conj : List Char := ['E', 'T']

def disj : List Char := ['O', 'U']

def neg : List Char := ['N', 'O', 'N']

/-- A word with a blank on each side. -/
def spaced (word : List Char) : List Char := ' ' :: word ++ [' ']

def parenthesized (inner : List Char) : List Char := '(' :: inner ++ [')']

end GuardedMachines.Spelling
