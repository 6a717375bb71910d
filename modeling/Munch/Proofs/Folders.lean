import Munch.Proofs.PathNames
import Munch.Command.Folder
import Munch.TableText.Entry

namespace Munch

open TableText (bind_eq_ok)
open Munch.Path (Named way)

theorem Folder.isDots_eq_true_iff {name : List Char} :
    isDots name = true ↔ name ∈ [[], ['.'], ['.', '.']] := by
  fun_cases isDots name with
  | case1 | case2 | case3 => simp
  | case4 => simp_all

theorem Place.child_of_not_isDots {here : Place} {name : List Char}
    (h : Folder.isDots name = false) : here.child name = ⟨here.within, here.names ++ [name]⟩ := by
  fun_cases child here name with
  | case1 | case2 | case3 | case4 => cases h
  | case5 => rfl

theorem Place.ofPath_of_named {path dir name : List Char} (h : Named path dir name) :
    ofPath path = ofPath dir := by
  simp only [ofPath, ne_eq, h.head?_eq_slash_iff]

namespace Folder

variable {folder folder' : Folder} {here : Place} {node : Node}

theorem lookup_put (place : Place) :
    (folder.put here node).entries.lookup place =
      if place = here then some node else folder.entries.lookup place := by
  obtain ⟨entries⟩ := folder
  rw [put]
  induction entries with
  | nil => grind
  | cons e entries ih => grind

theorem any_put (leadsTo : Place → Bool) (h : folder.entries.any (leadsTo ·.1) = true) :
    (folder.put here node).entries.any (leadsTo ·.1) = true := by
  obtain ⟨e, he, hlead⟩ := List.any_eq_true.1 h
  rw [List.any_eq_true]
  by_cases heq : e.1 = here
  · exact ⟨(here, node), by simp [put], by rw [← heq]; exact hlead⟩
  · exact ⟨e, by simp [put, he, heq], hlead⟩

theorem node?_put_self : (folder.put here node).node? here = some node := by
  rw [node?, lookup_put, if_pos rfl]

theorem node?_put_of_ne {place : Place} {x : Node} (hne : place ≠ here)
    (h : folder.node? place = some x) : (folder.put here node).node? place = some x := by
  simp only [node?] at h ⊢
  rw [lookup_put, if_neg hne]
  cases hlookup : folder.entries.lookup place with
  | some y =>
      rw [hlookup] at h
      exact h
  | none =>
      rw [hlookup] at h
      dsimp only at h ⊢
      obtain ⟨hdir, hx⟩ := Option.ite_none_right_eq_some.1 h
      rw [if_pos, hx]
      rw [Bool.or_eq_true] at hdir ⊢
      exact hdir.imp_right (any_put fun other =>
        place.within = other.within && place.names.isPrefixOf other.names)

theorem checkDirectory_eq_ok_iff {place : Place} :
    folder.checkDirectory place = .ok () ↔ folder.node? place = some .directory := by
  unfold checkDirectory
  split <;> simp_all

section Put

variable (hnode : folder.node? here ≠ some .directory)

include hnode

theorem checkDirectory_put {place : Place} (h : folder.checkDirectory place = .ok ()) :
    (folder.put here node).checkDirectory place = .ok () := by
  rw [checkDirectory_eq_ok_iff] at h ⊢
  exact node?_put_of_ne (fun heq => hnode (heq ▸ h)) h

theorem walk_put {start place : Place} {names : List (List Char)}
    (h : folder.walk start names = .ok place) :
    (folder.put here node).walk start names = .ok place := by
  induction names generalizing start with
  | nil => exact h
  | cons name names ih =>
      obtain ⟨⟨⟩, hdir, h⟩ := bind_eq_ok.1 h
      obtain ⟨⟨⟩, hname, h⟩ := bind_eq_ok.1 h
      exact bind_eq_ok.2 ⟨(), checkDirectory_put hnode hdir, bind_eq_ok.2 ⟨(), hname, ih h⟩⟩

theorem locate_put {path : List Char} {place : Place} (h : folder.locate path = .ok place) :
    (folder.put here node).locate path = .ok place := by
  obtain ⟨⟨⟩, hpath, h⟩ := bind_eq_ok.1 h
  exact bind_eq_ok.2 ⟨(), hpath, walk_put hnode h⟩

end Put

theorem walk_append {start : Place} (names more : List (List Char)) :
    folder.walk start (names ++ more) = folder.walk start names >>= (folder.walk · more) := by
  induction names generalizing start with
  | nil => rfl
  | cons name names ih =>
      rw [List.cons_append, walk, walk, bind_assoc]
      simp only [bind_assoc, ih]

theorem walk_singleton {up place : Place} {name : List Char} :
    folder.walk up [name] = .ok place ↔ folder.checkDirectory up = .ok () ∧
      checkName name = .ok () ∧ up.child name = place := by
  simp only [walk, bind_eq_ok, Except.ok.injEq]
  exact ⟨fun ⟨⟨⟩, hdir, ⟨⟩, hrest⟩ => ⟨hdir, hrest⟩, fun ⟨hdir, hrest⟩ => ⟨(), hdir, (), hrest⟩⟩

theorem exists_of_locate {path dir name : List Char} {place : Place} (hpath : Named path dir name)
    (h : folder.locate path = .ok place) :
    ∃ up, folder.walk (.ofPath dir) (way dir) = .ok up ∧ up.child name = place := by
  obtain ⟨⟨⟩, -, h⟩ := bind_eq_ok.1 h
  rw [Place.ofPath_of_named hpath, hpath.split_eq, walk_append] at h
  obtain ⟨up, hup, h⟩ := bind_eq_ok.1 h
  exact ⟨up, hup, (walk_singleton.1 h).2.2⟩

theorem locate_eq_iff {path path' dir name name' : List Char} {place place' : Place}
    (hpath : Named path dir name) (hpath' : Named path' dir name') (hname : isDots name = false)
    (hname' : isDots name' = false) (h : folder.locate path = .ok place)
    (h' : folder.locate path' = .ok place') : place = place' ↔ path = path' := by
  obtain ⟨up, hup, rfl⟩ := exists_of_locate hpath h
  obtain ⟨up', hup', rfl⟩ := exists_of_locate hpath' h'
  obtain rfl : up = up' := Except.ok.inj (hup.symm.trans hup')
  rw [Place.child_of_not_isDots hname, Place.child_of_not_isDots hname', hpath.eq, hpath'.eq]
  simp

/-- The holder of a path that ends with a name is the directory that the names before it lead to. -/
theorem locate_of_holder {path dir name last : List Char} {up : Place} (hpath : Named path dir name)
    (hne : name ≠ []) (h : folder.holder path = .ok (up, last)) (hlast : checkName last = .ok ()) :
    last = name ∧ folder.locate path = .ok (up.child name) := by
  have hnames : ((Path.split path).reverse.dropWhile (·.isEmpty)).reverse = way dir ++ [name] := by
    rw [hpath.split_eq, List.reverse_concat, List.dropWhile_cons_of_neg (by simpa using hne),
      List.reverse_cons, List.reverse_reverse]
  simp only [holder, hnames, List.dropLast_concat, List.getLast?_concat, Option.getD_some] at h
  obtain ⟨⟨⟩, hcheck, h⟩ := bind_eq_ok.1 h
  obtain ⟨here, hwalk, h⟩ := bind_eq_ok.1 h
  obtain ⟨⟨⟩, hdir, ⟨⟩⟩ := bind_eq_ok.1 h
  refine ⟨rfl, bind_eq_ok.2 ⟨(), hcheck, ?_⟩⟩
  rw [hpath.split_eq, walk_append]
  exact bind_eq_ok.2 ⟨up, hwalk, walk_singleton.2 ⟨hdir, hlast, rfl⟩⟩

/-- A file is written where its path leads, and no directory is replaced. -/
theorem write_cases {path content : List Char} (h : folder.write path content = .ok folder') :
    (∃ dir name, Named path dir name ∧ isDots name = false) ∧
      ∃ place, folder.locate path = .ok place ∧ folder.node? place ≠ some .directory ∧
        folder' = folder.put place (.file (String.ofList content).toUTF8) := by
  obtain ⟨⟨up, last⟩, hholder, h⟩ := bind_eq_ok.1 h
  dsimp only at h
  split at h
  · cases h
  · rename_i hlast
    simp only [Bool.or_eq_true, decide_eq_true_iff, not_or, Bool.not_eq_true] at hlast
    obtain ⟨⟨⟩, hcheck, h⟩ := bind_eq_ok.1 h
    obtain ⟨dir, name, hpath⟩ := Path.exists_named path
    have hne : name ≠ [] := by
      rintro rfl
      obtain ⟨rfl, rfl | ⟨up, rfl⟩, -⟩ := hpath
      · cases hholder
      · simp at hlast
    obtain ⟨rfl, hlocate⟩ := locate_of_holder hpath hne hholder hcheck
    refine ⟨⟨dir, _, hpath, hlast.1⟩, _, hlocate, ?_⟩
    split at h
    · cases h
    · rename_i hnode
      exact ⟨hnode, (Except.ok.inj h).symm⟩

theorem read_eq_ok_iff {path : List Char} {bytes : ByteArray} :
    folder.read path = .ok bytes ↔
      ∃ place, folder.locate path = .ok place ∧ folder.node? place = some (.file bytes) := by
  rw [read, bind_eq_ok]
  refine exists_congr fun place => and_congr_right fun _ => ?_
  split <;> simp_all

section Write

variable {path content : List Char} (h : folder.write path content = .ok folder')

include h

theorem read_write : folder'.read path = .ok (String.ofList content).toUTF8 := by
  obtain ⟨-, here, hhere, hnode, rfl⟩ := write_cases h
  exact read_eq_ok_iff.2 ⟨here, locate_put hnode hhere, node?_put_self⟩

theorem read_write_of_ne {other dir name name' : List Char} {bytes : ByteArray}
    (hpath : Named path dir name) (hother : Named other dir name') (hname : isDots name = false)
    (hname' : isDots name' = false) (hne : other ≠ path) (hread : folder.read other = .ok bytes) :
    folder'.read other = .ok bytes := by
  obtain ⟨-, here, hhere, hnode, rfl⟩ := write_cases h
  obtain ⟨place, hplace, hfile⟩ := read_eq_ok_iff.1 hread
  have hplaces : place ≠ here :=
    mt (locate_eq_iff hother hpath hname' hname hplace hhere).1 hne
  exact read_eq_ok_iff.2 ⟨place, locate_put hnode hplace, node?_put_of_ne hplaces hfile⟩

end Write

end Folder

end Munch
