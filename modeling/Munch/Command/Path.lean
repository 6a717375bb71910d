namespace Munch.Path

/-- Takes slashes and single dots off the end of a path that is written backwards. -/
def dropBack : List Char → List Char
  | '.' :: '/' :: cs => dropBack ('/' :: cs)
  | '/' :: c :: cs => dropBack (c :: cs)
  | cs => cs

def trimmed (path : List Char) : List Char := (dropBack path.reverse).reverse

def lastPart (path : List Char) : List Char :=
  ((trimmed path).reverse.takeWhile (· ≠ '/')).reverse

def parent? (path : List Char) : Option (List Char) :=
  if lastPart path = [] then none
  else some (trimmed ((trimmed path).reverse.dropWhile (· ≠ '/')).reverse)

theorem length_dropBack_le (path : List Char) : (dropBack path).length ≤ path.length := by
  fun_induction dropBack path with
  | case1 cs ih => exact Nat.le_succ_of_le ih
  | case2 c cs ih => exact Nat.le_succ_of_le ih
  | case3 => exact Nat.le_refl _

theorem length_trimmed_le (path : List Char) : (trimmed path).length ≤ path.length := by
  simpa [trimmed] using length_dropBack_le path.reverse

theorem length_parent? {path up : List Char} (h : parent? path = some up) :
    up.length < path.length := by
  unfold parent? at h
  split at h
  · simp at h
  · rename_i hlast
    obtain rfl := Option.some.inj h
    have hup := length_trimmed_le ((trimmed path).reverse.dropWhile (· ≠ '/')).reverse
    have hpath := length_trimmed_le path
    have hsum := congrArg List.length
      (List.takeWhile_append_dropWhile (p := (· ≠ '/')) (l := (trimmed path).reverse))
    have hpos : 0 < ((trimmed path).reverse.takeWhile (· ≠ '/')).length :=
      List.length_pos_iff.2 fun h => hlast (by rw [lastPart, h]; rfl)
    simp only [List.length_append, List.length_reverse] at hsum hup
    omega

/-- The last part up to the last dot in it. A dot at its beginning does not count. -/
def stem (name : List Char) : List Char :=
  match (name.reverse.dropWhile (· ≠ '.')).reverse with
  | [] | ['.'] => name
  | before => before.dropLast

def withExtension (path ext : List Char) : List Char :=
  let name := lastPart path
  if name ∈ [[], ['.'], ['.', '.']] then path
  else
    let kept := (trimmed path).length - name.length
    (trimmed path).take kept ++ stem name ++ '.' :: ext

def split : List Char → List (List Char)
  | [] => [[]]
  | c :: cs =>
    match split cs with
    | [] => [[c]]
    | part :: rest => if c = '/' then [] :: part :: rest else (c :: part) :: rest

def join (parts : List (List Char)) : List Char := ['/'].intercalate parts

end Munch.Path
