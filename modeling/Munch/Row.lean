namespace Munch

/-- A finite map from symbols. The entries are kept in ascending order, so that equal maps are
equal values. -/
structure Row (α : Type) where
  entries : List (Char × α)
  ascending : entries.Pairwise (·.1 < ·.1)
  deriving DecidableEq

namespace Row

variable {α β : Type}

def empty : Row α := ⟨[], .nil⟩

def get? (row : Row α) (c : Char) : Option α := row.entries.lookup c

def alterEntries (c : Char) (f : Option α → α) : List (Char × α) → List (Char × α)
  | [] => [(c, f none)]
  | (d, a) :: es =>
    if c < d then (c, f none) :: (d, a) :: es
    else if c = d then (c, f (some a)) :: es
    else (d, a) :: alterEntries c f es

theorem mem_alterEntries {c : Char} {f : Option α → α} {es : List (Char × α)} {x : Char × α}
    (h : x ∈ alterEntries c f es) : x.1 = c ∨ x ∈ es := by
  fun_induction alterEntries c f es <;> grind

theorem pairwise_alterEntries (c : Char) (f : Option α → α) {es : List (Char × α)}
    (h : es.Pairwise (·.1 < ·.1)) : (alterEntries c f es).Pairwise (·.1 < ·.1) := by
  fun_induction alterEntries c f es with
  | case1 => simp
  | case2 d a es hlt =>
    refine .cons (fun x hx => ?_) h
    rcases List.mem_cons.1 hx with rfl | hx
    · exact hlt
    · exact Char.lt_trans hlt (List.rel_of_pairwise_cons h hx)
  | case3 a es hlt =>
    obtain ⟨hc, hes⟩ := List.pairwise_cons.1 h
    exact .cons hc hes
  | case4 d a es hlt hne ih =>
    obtain ⟨hd, hes⟩ := List.pairwise_cons.1 h
    refine .cons (fun x hx => ?_) (ih hes)
    rcases mem_alterEntries hx with hx | hx
    · exact hx ▸ Std.lt_of_le_of_ne (Char.not_lt.1 hlt) (Ne.symm hne)
    · exact hd x hx

def alter (row : Row α) (c : Char) (f : Option α → α) : Row α :=
  ⟨alterEntries c f row.entries, pairwise_alterEntries c f row.ascending⟩

def insert (row : Row α) (c : Char) (a : α) : Row α := row.alter c fun _ => a

def map (f : α → β) (row : Row α) : Row β :=
  ⟨row.entries.map fun e => (e.1, f e.2), row.ascending.map _ fun _ _ h => h⟩

/-- Takes the entries in from the last to the first. Sorting puts each new one at the head. -/
def gather (f : β → Option α → α) (es : List (Char × β)) : Row α :=
  (es.mergeSort fun a b => a.1 ≤ b.1).foldr (fun e row => row.alter e.1 (f e.2)) empty

def ofList (es : List (Char × α)) : Row α := gather (fun a old => old.getD a) es

def group (es : List (Char × α)) : Row (List α) := gather (fun a old => a :: old.getD []) es

end Row

end Munch
