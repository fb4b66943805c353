-- The files of the listings that a compilation writes. They are opened one after
-- another, and the first one that does not open ends the compilation.
import ByteRegex.Proofs.Compile

namespace ByteRegex

variable {α : Type} {dest : Destination} {t : Tuning} {name : String} {names names' : List String}

/-! ## Opening files -/

namespace Destination

/-- The files of all these listings open. -/
def Opens (dest : Destination) (names : List String) : Prop :=
  ∀ name ∈ names, dest.fault name = none

/-- What comes of opening the files of some listings. -/
def openAll (dest : Destination) : List String → Except Error Unit
  | [] => .ok ()
  | name :: rest =>
    match dest.fault name with
    | none => dest.openAll rest
    | some reason => .error (Error.unopened (dest.path ++ name) reason)

theorem opens_append : dest.Opens (names ++ names') ↔ dest.Opens names ∧ dest.Opens names' :=
  List.forall_mem_append

theorem Opens.openAll (h : dest.Opens names) : dest.openAll names = .ok () := by
  induction names with
  | nil => rfl
  | cons name rest ih =>
    obtain ⟨hname, hrest⟩ := List.forall_mem_cons.1 h
    rw [Destination.openAll, hname]
    exact ih hrest

theorem openAll_append :
    dest.openAll (names ++ names') = (do dest.openAll names; dest.openAll names') := by
  induction names with
  | nil => rfl
  | cons name rest ih =>
    rw [List.cons_append, openAll, openAll]
    cases dest.fault name with
    | none => exact ih
    | some reason => rfl

end Destination

namespace Compile

/-- The first of these listings whose file does not open has ended a compilation. -/
def Blocked (dest : Destination) (names : List String) (r : Except Error α) : Prop :=
  ∃ before name after reason, names = before ++ name :: after ∧ dest.Opens before ∧
    dest.fault name = some reason ∧ r = .error (Error.unopened (dest.path ++ name) reason)

theorem Blocked.not_opens {r : Except Error α} (h : Blocked dest names r) : ¬ dest.Opens names := by
  obtain ⟨before, name, after, reason, rfl, _, hname, _⟩ := h
  intro hopens
  have hnone := hopens name (List.mem_append_right _ List.mem_cons_self)
  rw [hname] at hnone
  cases hnone

/-- Files that open may come before those where a compilation has ended. -/
theorem Blocked.behind {r : Except Error α} (h : Blocked dest names' r)
    (hopens : dest.Opens names) :
    Blocked dest (names ++ names') r := by
  obtain ⟨before, name, after, reason, rfl, hbefore, hname, hr⟩ := h
  refine ⟨names ++ before, name, after, reason, ?_, ?_, hname, hr⟩
  · rw [List.append_assoc]
  · exact Destination.opens_append.2 ⟨hopens, hbefore⟩

theorem openAll_cases (dest : Destination) (names : List String) :
    (dest.Opens names ∧ dest.openAll names = .ok ()) ∨ Blocked dest names (dest.openAll names) := by
  induction names with
  | nil => exact Or.inl ⟨nofun, rfl⟩
  | cons name rest ih =>
    rw [Destination.openAll]
    cases hname : dest.fault name with
    | some reason => exact Or.inr ⟨[], name, rest, reason, rfl, nofun, hname, rfl⟩
    | none =>
      have hopens : dest.Opens [name] := List.forall_mem_singleton.2 hname
      exact ih.imp (fun ⟨hrest, hall⟩ => ⟨List.forall_mem_cons.2 ⟨hname, hrest⟩, hall⟩)
        fun hblocked => hblocked.behind hopens

/-! ## Steps that list -/

/-- What comes of a step does not depend on what has been listed before. -/
def Gives (x : Compile α) (r : Except Error α) : Prop := ∀ s, (x.run s).1 = r

theorem write_gives (content : Unit → String) :
    (write dest name content).Gives (dest.openAll [name]) := by
  intro s
  rw [write, Destination.openAll]
  cases dest.fault name <;> rfl

theorem Gives.append {x y : Compile Unit} (hx : x.Gives (dest.openAll names))
    (hy : y.Gives (dest.openAll names')) :
    (do x; y : Compile Unit).Gives (dest.openAll (names ++ names')) := by
  intro s
  have hstep := hx s
  rw [bind_run, Destination.openAll_append]
  rcases hrun : x.run s with ⟨r, s1⟩
  rw [hrun] at hstep
  rw [← hstep]
  cases r with
  | error e => rfl
  | ok _ => exact hy s1

end Compile

/-! ## The listings that are asked for -/

namespace ListingFlags

/-- The listings of a nondeterministic automaton. -/
def nfaFiles (f : ListingFlags) (name : String) : List String :=
  if f.graphs then [name ++ ".txt", name ++ ".dot"] else []

/-- The listings of a deterministic automaton. -/
def dfaFiles (f : ListingFlags) (name : String) : List String :=
  if f.tables then [name ++ ".txt", name ++ ".dot"] else []

/-- The listings of the automaton of a direction, raw and as it is encoded. -/
def tableFiles (f : ListingFlags) (direction : Direction) : List String :=
  f.dfaFiles (direction.listingName ++ "_raw") ++ f.dfaFiles (direction.listingName ++ "_min")

/-- The listings of the finished database. -/
def databaseFiles (f : ListingFlags) : List String :=
  if f.summary then
    "database.txt" :: if f.tables then ["dfa_fwd.dot", "dfa_rev.dot"] else []
  else []

/-- All listings that are asked for, in the order in which their files are opened. -/
def files (f : ListingFlags) : List String :=
  f.nfaFiles "nfa_fwd" ++ f.nfaFiles "nfa_rev" ++ f.tableFiles .forward ++ f.tableFiles .reverse ++
    f.databaseFiles

end ListingFlags

/-- The files of all listings that are asked for open. -/
def Tuning.Unblocked (t : Tuning) (dest : Destination) : Prop := dest.Opens t.listings.files

namespace Compile

theorem listNfa_gives (n : Nfa) :
    (listNfa dest t name n).Gives (dest.openAll (t.listings.nfaFiles name)) := by
  unfold listNfa ListingFlags.nfaFiles
  split
  · exact (write_gives _).append (write_gives _)
  · exact fun _ => rfl

theorem listDfa_gives (d : Dfa) :
    (listDfa dest t name d).Gives (dest.openAll (t.listings.dfaFiles name)) := by
  unfold listDfa ListingFlags.dfaFiles
  split
  · exact (write_gives _).append (write_gives _)
  · exact fun _ => rfl

theorem listDatabase_gives (d : Database) :
    (listDatabase dest t d).Gives (dest.openAll t.listings.databaseFiles) := by
  unfold listDatabase ListingFlags.databaseFiles
  split
  · split
    · exact (write_gives _).append ((write_gives _).append (write_gives _))
    · exact (write_gives _).append fun _ => rfl
  · exact fun _ => rfl

end Compile

end ByteRegex
