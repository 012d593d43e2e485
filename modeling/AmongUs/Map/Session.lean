import AmongUs.Map.DocumentDesigner

/-!
The map designer with its document and its file.

CTRL+C writes the text of the document to the file, and CTRL+O reads a
document back and loads it. The file is there before the program starts, and
holds whatever it holds. What the program saves is the text of a document that
can be loaded, so a saved file can always be opened, and `LoadMap` finds in it
what the designer had (`saved_opens`).

The map designer over a `MapDict`, with a `MapDict` for the file, says what
this is for. Where the file holds a map at the start, or nothing that can be
loaded, the two stay in step: the value is the document of the map, and the
file holds the text of the document that was saved last. So nothing throws,
except when a file is opened that cannot be loaded, and that is one from before
the first save (`session_refines`).
-/

namespace AmongUs

open Transition Json

/-- What a frame is given. -/
structure SessionInput where
  input : Input
  bSave : Bool
  bOpen : Bool

/-- CTRL+C or CTRL+O, outside of the tile selection. -/
def SessionInput.saves (i : SessionInput) : Bool := !i.input.bHeld .tab && i.bSave

def SessionInput.opens (i : SessionInput) : Bool := !i.input.bHeld .tab && i.bOpen

/-- The mouse is at coordinates of `vi2d`. -/
def SessionInput.OnScreen (i : SessionInput) : Prop := FitsInt32 i.input.vMouse

/-- `o << std::setw(4) << mapDict << std::endl`, where the width is the
indent. -/
def savedText (Φ : FloatText) (mapDict : Json) : List UInt8 :=
  dumped Φ 4 (by decide) mapDict ++ [0x0A]

/-- The designer and what is in the file; a file that is missing reads like
an empty one. -/
structure Session where
  designer : DocumentDesigner
  file : List UInt8

namespace Session

/-- CTRL+C. -/
def save (Φ : FloatText) (s : Session) : Session :=
  { s with file := savedText Φ s.designer.mapDict }

/-- CTRL+O. -/
def load (Φ : FloatText) (s : Session) : Option Session := do
  let mapDict ← Parser.fromStream Φ s.file
  let world ← loadItems s.designer.world mapDict
  return { s with designer := { s.designer with world, mapDict } }

def frame (Φ : FloatText) (s : Session) (i : SessionInput) : Option Session := do
  let designer ← s.designer.onUserUpdate i.input
  let s := { s with designer }
  if i.input.bHeld .tab then return s
  let s := if i.bSave then s.save Φ else s
  if i.bOpen then s.load Φ else return s

def machine (Φ : FloatText) : Machine Session SessionInput Unit Unit where
  enabled _ _ := true
  step s i :=
    match frame Φ s i with
    | some t => .ok (t, ())
    | none => .error ()

/-- The program starts, and the file is what it is. -/
def start (file : List UInt8) : Option Session :=
  DocumentDesigner.onUserCreate.map fun designer => { designer, file }

end Session

/-- The last frame that saved. -/
def lastSave {σ : Type} (tr : List (Event σ SessionInput Unit)) :
    Option (Event σ SessionInput Unit) := (tr.filter fun e => e.act.saves).getLast?

theorem lastSave_snoc {σ : Type} (tr : List (Event σ SessionInput Unit))
    (e : Event σ SessionInput Unit) :
    lastSave (tr ++ [e]) = if e.act.saves then some e else lastSave tr := by
  rw [lastSave, lastSave, List.filter_append]
  cases h : e.act.saves <;> simp [h]

theorem lastSave_eq_none_iff {σ : Type} {tr : List (Event σ SessionInput Unit)} :
    lastSave tr = none ↔ ∀ e ∈ tr, e.act.saves = false := by
  simp [lastSave]

theorem mem_of_lastSave {σ : Type} {tr : List (Event σ SessionInput Unit)}
    {e : Event σ SessionInput Unit} (h : lastSave tr = some e) : e ∈ tr :=
  (List.mem_filter.mp (List.mem_of_getLast? h)).1

/-! ### What the session is for -/

/-- The designer over a map, and the map that was saved last. -/
structure MapSession where
  designer : MapDesigner
  saved : Option MapDict

namespace MapSession

/-- Before the first save the file holds what is given. -/
def frame (given : Option MapDict) (s : MapSession) (i : SessionInput) : Option MapSession :=
  let saved := if i.saves then some (s.designer.onUserUpdate i.input).mapDict else s.saved
  (s.designer.frame { input := i.input, bOpen := i.bOpen, file := saved.or given }).map
    fun designer => { designer, saved }

def machine (given : Option MapDict) : Machine MapSession SessionInput Unit Unit where
  enabled _ _ := true
  step s i :=
    match frame given s i with
    | some t => .ok (t, ())
    | none => .error ()

def start : MapSession := { designer := .onUserCreate, saved := none }

/-- The session with the document, and with the text of the one that was
saved; before that, `file`. -/
def session (Φ : FloatText) (file : List UInt8) (t : MapSession) : Session where
  designer := t.designer.document
  file := (t.saved.map fun d => savedText Φ d.toJson).getD file

end MapSession

/-- What the text is to those who load it: the document of a map, or nothing
that can be loaded. -/
def Holds (Φ : FloatText) (text : List UInt8) : Option MapDict → Prop
  | none => ∀ doc, Parser.fromStream Φ text = some doc → ¬doc.Loadable
  | some d => d.Designed ∧ Parser.fromStream Φ text = some d.toJson

/-- What can be loaded from the text is read back from the text that is
written for it. -/
def Rewritable (Φ : FloatText) (text : List UInt8) : Prop :=
  ∀ doc, Parser.fromStream Φ text = some doc → doc.Loadable → Serializer.Fits Φ doc

variable {Φ : FloatText} {file : List UInt8} {given : Option MapDict}

theorem fromStream_savedText {doc : Json} (h : Serializer.Fits Φ doc) :
    Parser.fromStream Φ (savedText Φ doc) = some doc :=
  fromStream_dump h (dump_dumped _ doc) (Lexer.endsNumber_cons [] next_newline)

theorem Holds.designed (h : Holds Φ file given) : ∀ d, given = some d → d.Designed := by
  rintro d rfl
  exact h.1

theorem Holds.rewritable (h : Holds Φ file given) : Rewritable Φ file := by
  intro doc hread hloadable
  cases given with
  | none => exact absurd hloadable (h doc hread)
  | some d =>
      obtain ⟨hdesigned, hd⟩ := h
      rw [hd, Option.some.injEq] at hread
      exact hread ▸ hdesigned.fits

/-! ### Sessions over any file -/

namespace Session

variable {s s' s₀ : Session} {i : SessionInput} {tr : List (Event Session SessionInput Unit)}
  {w : World}

/-- The session after the saving, and before the opening. -/
def edited (Φ : FloatText) (s : Session) (designer : DocumentDesigner) (i : SessionInput) :
    Session where
  designer
  file := if i.saves then savedText Φ designer.mapDict else s.file

theorem frame_eq (s : Session) (i : SessionInput) : s.frame Φ i =
    (s.designer.onUserUpdate i.input).bind fun designer =>
      if i.opens then (s.edited Φ designer i).load Φ else some (s.edited Φ designer i) := by
  rw [frame, Option.bind_eq_bind]
  refine congrArg _ (funext fun designer => ?_)
  rw [edited, SessionInput.saves, SessionInput.opens]
  cases i.input.bHeld .tab with
  | true => rfl
  | false => cases i.bSave <;> cases i.bOpen <;> rfl

theorem load_eq_some_iff : s.load Φ = some s' ↔
    ∃ doc world, Parser.fromStream Φ s.file = some doc ∧
      loadItems s.designer.world doc = some world ∧
      s' = { s with designer := { s.designer with world, mapDict := doc } } := by
  simp only [load, Option.bind_eq_bind, Option.bind_eq_some_iff, pure, Option.some.injEq,
    eq_comm (a := s')]
  constructor
  · rintro ⟨doc, hread, world, hload, heq⟩
    exact ⟨doc, world, hread, hload, heq⟩
  · rintro ⟨doc, world, hread, hload, heq⟩
    exact ⟨doc, hread, world, hload, heq⟩

theorem load_eq_none_iff : s.load Φ = none ↔
    ∀ doc, Parser.fromStream Φ s.file = some doc → ¬doc.Loadable := by
  simp only [Option.eq_none_iff_forall_ne_some, ne_eq, load_eq_some_iff, ← loadItems_isSome_iff
    (w := s.designer.world), Option.isSome_iff_exists]
  constructor
  · rintro h doc hread ⟨world, hload⟩
    exact h _ ⟨doc, world, hread, hload, rfl⟩
  · rintro h _ ⟨doc, world, hread, hload, -⟩
    exact h doc hread ⟨world, hload⟩

theorem frame_of_takes {e : Event Session SessionInput Unit} (h : (machine Φ).Takes e) :
    e.src.frame Φ e.act = some e.dst := by
  obtain ⟨-, hstep⟩ := h
  cases hframe : e.src.frame Φ e.act with
  | none => simp [machine, hframe] at hstep
  | some t => simpa [machine, hframe] using hstep

theorem takes_of_frame (h : s.frame Φ i = some s') : (machine Φ).Takes ⟨s, i, (), s'⟩ :=
  ⟨rfl, by simp [machine, h]⟩

theorem step_eq_error_iff : (machine Φ).step s i = .error () ↔ s.frame Φ i = none := by
  rw [machine]
  dsimp only
  cases s.frame Φ i <;> simp

/-- What holds whatever the file was at the start. -/
structure Kept (Φ : FloatText) (s : Session) : Prop where
  designer : s.designer.Kept Φ
  file : Rewritable Φ s.file

theorem Kept.edited {designer : DocumentDesigner} (h : s.Kept Φ) (hi : i.OnScreen)
    (hupdate : s.designer.onUserUpdate i.input = some designer) :
    (s.edited Φ designer i).Kept Φ := by
  have hdesigner := h.designer.onUserUpdate hi hupdate
  refine ⟨hdesigner, ?_⟩
  rw [Session.edited]
  split
  · intro doc hread _
    rw [fromStream_savedText hdesigner.mapDict.fits, Option.some.injEq] at hread
    exact hread ▸ hdesigner.mapDict.fits
  · exact h.file

theorem Kept.frame (h : s.Kept Φ) (hi : i.OnScreen) (hframe : s.frame Φ i = some s') :
    s'.Kept Φ := by
  rw [frame_eq, Option.bind_eq_some_iff] at hframe
  obtain ⟨designer, hupdate, hframe⟩ := hframe
  have hedited := h.edited hi hupdate
  split at hframe
  · obtain ⟨doc, world, hread, hload, rfl⟩ := load_eq_some_iff.mp hframe
    have hloadable := loadItems_isSome_iff.mp (by rw [hload]; rfl)
    exact ⟨⟨(loadItems_size hload).trans hedited.designer.size, hedited.designer.cursor,
      hedited.designer.tile, hloadable, hedited.file doc hread hloadable⟩, hedited.file⟩
  · exact Option.some.inj hframe ▸ hedited

theorem kept_visited (h : (machine Φ).Run s₀ tr s) (hs : s₀.Kept Φ)
    (hscreen : ∀ e ∈ tr, e.act.OnScreen) : ∀ m ∈ Machine.visited s₀ tr, m.Kept Φ := by
  refine h.visited_invariant (I := Kept Φ) (g := fun _ i => i.OnScreen) hs hscreen ?_
  intro e htakes hi hsrc
  exact hsrc.frame hi (frame_of_takes htakes)

theorem file_of_frame (h : s.frame Φ i = some s') : ∃ designer,
    s.designer.onUserUpdate i.input = some designer ∧ s'.file = (s.edited Φ designer i).file := by
  rw [frame_eq, Option.bind_eq_some_iff] at h
  obtain ⟨designer, hupdate, hframe⟩ := h
  refine ⟨designer, hupdate, ?_⟩
  split at hframe
  · obtain ⟨doc, world, -, -, rfl⟩ := load_eq_some_iff.mp hframe
    rfl
  · rw [← Option.some.inj hframe]

/-- The file holds what was saved last, or still what it held at first. -/
theorem run_file (h : (machine Φ).Run s₀ tr s) :
    (lastSave tr = none → s.file = s₀.file) ∧
    ∀ e, lastSave tr = some e → ∃ shown, e.src.designer.onUserUpdate e.act.input = some shown ∧
      s.file = savedText Φ shown.mapDict := by
  refine h.history (I := fun tr s => (lastSave tr = none → s.file = s₀.file) ∧
    ∀ e, lastSave tr = some e → ∃ shown, e.src.designer.onUserUpdate e.act.input = some shown ∧
      s.file = savedText Φ shown.mapDict) ⟨fun _ => rfl, fun _ he => nomatch he⟩ ?_
  intro tr e _ htakes ih
  obtain ⟨designer, hupdate, hfile⟩ := file_of_frame (frame_of_takes htakes)
  rw [lastSave_snoc, hfile, Session.edited]
  split
  · refine ⟨nofun, fun e' he' => ?_⟩
    obtain rfl := Option.some.inj he'
    exact ⟨designer, hupdate, rfl⟩
  · exact ih

end Session

/-! ### Sessions over a map -/

namespace MapSession

variable {s s' : MapSession} {i : SessionInput} {d : MapDict}
  {tr : List (Event MapSession SessionInput Unit)}

/-- What the map session keeps. -/
structure Designed (t : MapSession) : Prop where
  onMap : t.designer.OnMap
  mapDict : t.designer.mapDict.Designed
  saved : ∀ d, t.saved = some d → d.Designed
  tile : FitsInt32 (t.designer.vTileCursor * vTileSize)

/-- Opening the file does what opening the map does. -/
theorem session_load (h : s.Designed) (hgiven : Holds Φ file given) :
    (s.session Φ file).load Φ =
      (s.designer.load (s.saved.or given)).map fun designer =>
        session Φ file { s with designer } := by
  obtain ⟨t, saved⟩ := s
  -- what is loaded is the document of a map, or nothing
  have hopened (d : MapDict) (hd : d.Designed)
      (hread : Parser.fromStream Φ (session Φ file ⟨t, saved⟩).file = some d.toJson) :
      (session Φ file ⟨t, saved⟩).load Φ =
        (t.load (some d)).map fun designer => session Φ file ⟨designer, saved⟩ := by
    rw [Session.load, hread, Option.bind_eq_bind, Option.bind_some]
    change (loadItems t.world d.toJson >>= _) = _
    rw [loadItems_toJson hd, MapDesigner.load, Option.bind_eq_bind, Option.bind_eq_bind,
      Option.bind_some]
    cases loadEntries t.world d <;> rfl
  cases saved with
  | some d => exact hopened d (h.saved d rfl) (fromStream_savedText (h.saved d rfl).fits)
  | none =>
      cases given with
      | some d => exact hopened d hgiven.1 hgiven.2
      | none => exact Session.load_eq_none_iff.mpr hgiven

/-- The session after the saving, and before the opening. -/
def edited (s : MapSession) (i : SessionInput) : MapSession where
  designer := s.designer.onUserUpdate i.input
  saved := if i.saves then some (s.designer.onUserUpdate i.input).mapDict else s.saved

theorem frame_eq (given : Option MapDict) (s : MapSession) (i : SessionInput) : s.frame given i =
    if i.opens then
      ((s.edited i).designer.load ((s.edited i).saved.or given)).map fun designer =>
        { s.edited i with designer }
    else some (s.edited i) := by
  rw [frame, MapDesigner.frame, edited]
  dsimp only
  rw [← SessionInput.opens]
  cases i.opens <;> rfl

theorem Designed.edited (h : s.Designed) (hi : i.OnScreen) : (s.edited i).Designed where
  onMap := h.onMap.onUserUpdate
  mapDict := MapDesigner.designed_onUserUpdate h.onMap.cursor h.mapDict h.tile i.input
  saved d hd := by
    rw [MapSession.edited] at hd
    dsimp only at hd
    split at hd
    · rw [← Option.some.inj hd]
      exact MapDesigner.designed_onUserUpdate h.onMap.cursor h.mapDict h.tile i.input
    · exact h.saved d hd
  tile := MapDesigner.fits_vTileCursor h.tile hi

theorem session_edited (s : MapSession) (i : SessionInput) :
    (s.session Φ file).edited Φ (s.edited i).designer.document i =
      (s.edited i).session Φ file := by
  rw [Session.edited, edited]
  cases i.saves <;> rfl

/-- A frame of the source is a frame of the session over maps. -/
theorem session_frame (h : s.Designed) (hi : i.OnScreen)
    (hgiven : i.opens = true → Holds Φ file given) :
    (s.session Φ file).frame Φ i = (s.frame given i).map (session Φ file) := by
  have hupdate : (s.session Φ file).designer.onUserUpdate i.input =
      some (s.edited i).designer.document :=
    MapDesigner.document_onUserUpdate h.onMap.cursor i.input
  rw [Session.frame_eq, hupdate, Option.bind_some, session_edited, frame_eq]
  cases hopens : i.opens with
  | false => rfl
  | true =>
      rw [if_pos rfl, if_pos rfl, session_load (h.edited hi) (hgiven hopens), Option.map_map]
      rfl

theorem Designed.frame (h : s.Designed) (hi : i.OnScreen)
    (hgiven : ∀ d, given = some d → d.Designed) (hframe : s.frame given i = some s') :
    s'.Designed := by
  have hedited := h.edited hi
  rw [frame_eq] at hframe
  split at hframe
  · obtain ⟨t, hload, rfl⟩ := Option.map_eq_some_iff.mp hframe
    cases hfile : (s.edited i).saved.or given with
    | none =>
        rw [hfile] at hload
        exact nomatch hload
    | some d =>
        have hd : d.Designed := by
          rcases Option.or_eq_some_iff.mp hfile with hsaved | ⟨-, hd⟩
          · exact hedited.saved d hsaved
          · exact hgiven d hd
        rw [hfile] at hload
        obtain ⟨w, hentries, rfl⟩ := MapDesigner.load_eq_some_iff.mp hload
        exact ⟨hedited.onMap.load hload, hd, hedited.saved, hedited.tile⟩
  · rw [← Option.some.inj hframe]
    exact hedited

theorem designed_onUserCreate : MapDesigner.onUserCreate.mapDict.Designed where
  keyed := MapDesigner.editing_onUserCreate.keyed
  mapSize _ h := Option.some.inj h ▸ by decide
  entry key e he := by
    rw [MapDesigner.cells_onUserCreate] at he
    exact nomatch he

theorem designed_start : start.Designed where
  onMap := ⟨MapDesigner.editing_onUserCreate.size, MapDesigner.editing_onUserCreate.cursor⟩
  mapDict := designed_onUserCreate
  saved _ h := nomatch h
  tile := by decide

theorem start_session : Session.start file = some (start.session Φ file) := by
  rw [Session.start, MapDesigner.document_onUserCreate]
  rfl

theorem kept_start (hfile : Rewritable Φ file) : (start.session Φ file).Kept Φ where
  designer :=
    { size := MapDesigner.editing_onUserCreate.size
      cursor := MapDesigner.editing_onUserCreate.cursor
      tile := designed_start.tile
      mapDict := ⟨designed_onUserCreate.loadable, designed_onUserCreate.fits⟩ }
  file := hfile

theorem frame_of_takes {e : Event MapSession SessionInput Unit} (h : (machine given).Takes e) :
    e.src.frame given e.act = some e.dst := by
  obtain ⟨-, hstep⟩ := h
  cases hframe : e.src.frame given e.act with
  | none => simp [machine, hframe] at hstep
  | some t => simpa [machine, hframe] using hstep

theorem takes_of_frame {t : MapSession} (h : s.frame given i = some t) :
    (machine given).Takes ⟨s, i, (), t⟩ := ⟨rfl, by simp [machine, h]⟩

theorem designed_visited (hgiven : ∀ d, given = some d → d.Designed)
    (h : (machine given).Run start tr s) (hscreen : ∀ e ∈ tr, e.act.OnScreen) :
    ∀ m ∈ Machine.visited start tr, m.Designed := by
  refine h.visited_invariant (I := Designed) (g := fun _ i => i.OnScreen) designed_start hscreen ?_
  intro e htakes hi hsrc
  exact hsrc.frame hi hgiven (frame_of_takes htakes)

/-- The event with the documents. -/
def sessionEvent (Φ : FloatText) (file : List UInt8) (e : Event MapSession SessionInput Unit) :
    Event Session SessionInput Unit :=
  ⟨e.src.session Φ file, e.act, e.out, e.dst.session Φ file⟩

/-- A session of the source in which no other document is opened is one over
maps, frame by frame. -/
theorem exists_run {tr : List (Event Session SessionInput Unit)} {s : Session}
    (hdesigned : ∀ d, given = some d → d.Designed)
    (h : (Session.machine Φ).Run (start.session Φ file) tr s)
    (hscreen : ∀ e ∈ tr, e.act.OnScreen)
    (hgiven : ∀ e ∈ tr, e.act.opens = true → Holds Φ file given) :
    ∃ tr' t, (machine given).Run start tr' t ∧ t.session Φ file = s ∧
      tr = tr'.map (sessionEvent Φ file) ∧ ∀ m ∈ Machine.visited start tr', m.Designed := by
  induction h with
  | nil => exact ⟨[], start, .nil, rfl, rfl, by simpa [Machine.visited] using designed_start⟩
  | @snoc tr e _ htakes ih =>
      obtain ⟨hpre, hi⟩ := List.forall_mem_append.mp hscreen
      obtain ⟨hpre', hlast⟩ := List.forall_mem_append.mp hgiven
      obtain ⟨tr', t, hrun, hsrc, rfl, hvisited⟩ := ih hpre hpre'
      have hi : e.act.OnScreen := hi e List.mem_cons_self
      have hframe := Session.frame_of_takes htakes
      rw [← hsrc, session_frame (hvisited t hrun.end_mem_visited) hi (hlast e List.mem_cons_self)]
        at hframe
      obtain ⟨t', hframe, hdst⟩ := Option.map_eq_some_iff.mp hframe
      have hrun' : (machine given).Run start (tr' ++ [⟨t, e.act, (), t'⟩]) t' :=
        .snoc (e := ⟨t, e.act, (), t'⟩) hrun (takes_of_frame hframe)
      refine ⟨_, t', hrun', hdst, ?_, designed_visited hdesigned hrun' fun e' he' => ?_⟩
      · rw [List.map_append, List.map_singleton, sessionEvent]
        dsimp only
        rw [hsrc, hdst]
      · rcases List.mem_append.mp he' with he' | he'
        · exact hpre _ (List.mem_map_of_mem (f := sessionEvent Φ file) he')
        · rw [List.mem_singleton.mp he']
          exact hi

theorem lastSave_map (tr : List (Event MapSession SessionInput Unit)) :
    lastSave (tr.map (sessionEvent Φ file)) = (lastSave tr).map (sessionEvent Φ file) := by
  induction tr using List.reverseRecOn with
  | nil => rfl
  | append_singleton tr e ih =>
      rw [List.map_append, List.map_singleton, lastSave_snoc, lastSave_snoc, ih, sessionEvent]
      dsimp only
      split <;> rfl

/-- The last frame that saved, and what it had. -/
theorem exists_lastSave {tr : List (Event Session SessionInput Unit)} {s : Session}
    {e : Event Session SessionInput Unit} (hdesigned : ∀ d, given = some d → d.Designed)
    (h : (Session.machine Φ).Run (start.session Φ file) tr s)
    (hscreen : ∀ e ∈ tr, e.act.OnScreen)
    (hgiven : ∀ e ∈ tr, e.act.opens = true → Holds Φ file given) (he : lastSave tr = some e) :
    ∃ tr' t e', (machine given).Run start tr' t ∧ tr = tr'.map (sessionEvent Φ file) ∧
      e' ∈ tr' ∧ e = sessionEvent Φ file e' ∧
      e.src.designer.onUserUpdate e.act.input =
        some (e'.src.designer.onUserUpdate e'.act.input).document ∧
      (e'.src.designer.onUserUpdate e'.act.input).mapDict.Designed := by
  obtain ⟨tr', t, hrun, -, rfl, hvisited⟩ := exists_run hdesigned h hscreen hgiven
  rw [lastSave_map] at he
  obtain ⟨e', he', rfl⟩ := Option.map_eq_some_iff.mp he
  have hmem := mem_of_lastSave he'
  have hsrc := hvisited _ (hrun.src_mem_visited e' hmem)
  exact ⟨tr', t, e', hrun, rfl, hmem, rfl, MapDesigner.document_onUserUpdate hsrc.onMap.cursor _,
    MapDesigner.designed_onUserUpdate hsrc.onMap.cursor hsrc.mapDict hsrc.tile _⟩

end MapSession

/-! ### Whole sessions -/

namespace Session

variable {s s₀ : Session} {i : SessionInput} {tr : List (Event Session SessionInput Unit)}
  {w : World}

/-- A frame throws where an edit does, or where it opens what cannot be
loaded. What it has just saved can be. -/
theorem frame_eq_none_iff (h : s.Kept Φ) (hi : i.OnScreen) : s.frame Φ i = none ↔
    (i.input.bHeld .tab = false ∧ s.designer.Refuses i.input) ∨
      i.opens = true ∧ i.saves = false ∧
        ∀ doc, Parser.fromStream Φ s.file = some doc → ¬doc.Loadable := by
  rw [← DocumentDesigner.onUserUpdate_eq_none_iff, frame_eq]
  cases hupdate : s.designer.onUserUpdate i.input with
  | none => simp
  | some designer =>
      have hedited := h.designer.onUserUpdate hi hupdate
      rw [Option.bind_some, or_iff_right (by simp)]
      cases i.opens with
      | false => simp
      | true =>
          rw [if_pos rfl, load_eq_none_iff, and_iff_right rfl, edited]
          cases i.saves with
          | false => simp
          | true =>
              refine iff_of_false (fun hnone => ?_) (by simp)
              exact hnone _ (fromStream_savedText hedited.mapDict.fits) hedited.mapDict.loadable

theorem kept_of_lastSave {e : Event Session SessionInput Unit} {shown : DocumentDesigner}
    (h : (machine Φ).Run s₀ tr s) (hs : s₀.Kept Φ) (hscreen : ∀ e ∈ tr, e.act.OnScreen)
    (he : lastSave tr = some e)
    (hshown : e.src.designer.onUserUpdate e.act.input = some shown) : shown.Kept Φ := by
  have hmem := mem_of_lastSave he
  exact (kept_visited h hs hscreen _ (h.src_mem_visited e hmem)).designer.onUserUpdate
    (hscreen e hmem) hshown

/-- Nothing can be loaded only as long as nothing was saved. -/
theorem unloadable_iff (h : (machine Φ).Run s₀ tr s) (hs : s₀.Kept Φ)
    (hscreen : ∀ e ∈ tr, e.act.OnScreen) :
    (∀ doc, Parser.fromStream Φ s.file = some doc → ¬doc.Loadable) ↔
      (∀ e ∈ tr, e.act.saves = false) ∧
        ∀ doc, Parser.fromStream Φ s₀.file = some doc → ¬doc.Loadable := by
  rw [← lastSave_eq_none_iff]
  obtain ⟨hnone, hsome⟩ := run_file h
  cases he : lastSave tr with
  | none => rw [hnone he, and_iff_right rfl]
  | some e =>
      obtain ⟨shown, hshown, hfile⟩ := hsome e he
      have hkept := kept_of_lastSave h hs hscreen he hshown
      refine iff_of_false (fun hall => ?_) (by simp)
      rw [hfile] at hall
      exact hall _ (fromStream_savedText hkept.mapDict.fits) hkept.mapDict.loadable

theorem not_refuses {t : MapSession} (h : t.designer.OnMap) {i : Input}
    (htab : i.bHeld .tab = false) : ¬(t.session Φ file).designer.Refuses i := by
  intro hrefuses
  have hnone := DocumentDesigner.onUserUpdate_eq_none_iff.mpr ⟨htab, hrefuses⟩
  exact nomatch (MapDesigner.document_onUserUpdate h.cursor i).symm.trans hnone

/-- **The source refines the map designer.** From any file, a frame throws
exactly when the document does not take its edits, or when it opens a file
that cannot be loaded and that no frame has saved. Where the file held a map
at the start, or nothing that can be loaded, no edit throws, and the session
is one over maps, frame by frame. -/
theorem session_refines (hfile : Rewritable Φ file) (hstart : start file = some s₀)
    (h : (machine Φ).Run s₀ tr s) (hscreen : ∀ e ∈ tr, e.act.OnScreen) :
    (∀ i : SessionInput, i.OnScreen → ((machine Φ).step s i = .error () ↔
      (i.input.bHeld .tab = false ∧ s.designer.Refuses i.input) ∨
        i.opens = true ∧ i.saves = false ∧ (∀ e ∈ tr, e.act.saves = false) ∧
          ∀ doc, Parser.fromStream Φ file = some doc → ¬doc.Loadable)) ∧
    ∀ given, Holds Φ file given →
      (∀ i : Input, i.bHeld .tab = false → ¬s.designer.Refuses i) ∧
        ∃ tr' t, (MapSession.machine given).Run MapSession.start tr' t ∧
          t.session Φ file = s ∧ tr'.map Event.act = tr.map Event.act := by
  rw [MapSession.start_session (Φ := Φ), Option.some.injEq] at hstart
  subst hstart
  have hs := MapSession.kept_start hfile
  refine ⟨fun i hi => ?_, fun given hgiven => ?_⟩
  · rw [step_eq_error_iff, frame_eq_none_iff (kept_visited h hs hscreen s h.end_mem_visited) hi,
      unloadable_iff h hs hscreen]
    rfl
  · obtain ⟨tr', t, hrun, rfl, rfl, hvisited⟩ :=
      MapSession.exists_run hgiven.designed h hscreen fun _ _ _ => hgiven
    have ht := hvisited t hrun.end_mem_visited
    refine ⟨fun i htab => not_refuses ht.onMap htab, tr', t, hrun, rfl, ?_⟩
    rw [List.map_map]
    rfl

/-- A frame that places a block, or takes it away, and saves the map. -/
def pressSave : SessionInput where
  input := MapDesigner.press [.space]
  bSave := true
  bOpen := false

def pressOpen : SessionInput where
  input := MapDesigner.press []
  bSave := false
  bOpen := true

theorem onScreen_pressOpen : pressOpen.OnScreen := by
  show FitsInt32 ⟨0, 0⟩
  decide

theorem onScreen_pressSave : pressSave.OnScreen := by
  show FitsInt32 ⟨0, 0⟩
  decide

/-- A map is opened that was there before; then the block under the cursor is
taken away, or there is a new one, and the map is saved. -/
theorem exists_run_reopened {d : MapDict} (hfile : Holds Φ file (some d)) : ∃ e₁ e₂ s,
    (machine Φ).Run (MapSession.start.session Φ file) [e₁, e₂] s ∧
      e₁.act = pressOpen ∧ e₂.act = pressSave := by
  have hkept := MapSession.kept_start hfile.rewritable
  have hopen : (MapSession.start.session Φ file).frame Φ pressOpen ≠ none := by
    rw [Ne, frame_eq_none_iff hkept onScreen_pressOpen]
    rintro (⟨htab, hrefuses⟩ | ⟨-, -, hall⟩)
    · exact not_refuses MapSession.designed_start.onMap htab hrefuses
    · exact hall _ hfile.2 hfile.1.loadable
  obtain ⟨s₁, hs₁⟩ := Option.ne_none_iff_exists'.mp hopen
  have hfirst : (machine Φ).Run (MapSession.start.session Φ file)
      [⟨_, pressOpen, (), s₁⟩] s₁ := .snoc (e := ⟨_, pressOpen, (), s₁⟩) .nil (takes_of_frame hs₁)
  obtain ⟨tr, t, hrun, rfl, -, hvisited⟩ := MapSession.exists_run hfile.designed hfirst
    (List.forall_mem_singleton.mpr onScreen_pressOpen) fun _ _ _ => hfile
  have ht := hvisited t hrun.end_mem_visited
  have hsave : (t.session Φ file).frame Φ pressSave ≠ none := by
    rw [Ne, frame_eq_none_iff (hkept.frame onScreen_pressOpen hs₁) onScreen_pressSave]
    rintro (⟨htab, hrefuses⟩ | ⟨hopens, -, -⟩)
    · exact not_refuses ht.onMap htab hrefuses
    · exact Bool.false_ne_true hopens
  obtain ⟨s₂, hs₂⟩ := Option.ne_none_iff_exists'.mp hsave
  exact ⟨_, _, s₂, .snoc (e := ⟨_, pressSave, (), s₂⟩) hfirst (takes_of_frame hs₂), rfl, rfl⟩

theorem onScreen_reopened {e₁ e₂ : Event Session SessionInput Unit} (h₁ : e₁.act = pressOpen)
    (h₂ : e₂.act = pressSave) : ∀ e ∈ [e₁, e₂], e.act.OnScreen := by
  simp [h₁, h₂, onScreen_pressOpen, onScreen_pressSave]

theorem holds_compact {d : MapDict} (h : d.Designed) : Holds Φ (compact Φ d.toJson) (some d) :=
  ⟨h, fromStream_compact h.fits⟩

/-- The map with one block, and a file that was there before. -/
def oneBlock : MapDict := (MapSession.start.edited pressSave).designer.mapDict

def oldFile : List UInt8 := compact .twoAndAHalf oneBlock.toJson

theorem designed_oneBlock : oneBlock.Designed :=
  (MapSession.designed_start.edited onScreen_pressSave).mapDict

theorem holds_oldFile : Holds .twoAndAHalf oldFile (some oneBlock) :=
  holds_compact designed_oneBlock

/-- An old file is opened before anything was saved, and the map that is saved
then can be opened again. -/
theorem session_refines_oldFile : ∃ tr s,
    (machine .twoAndAHalf).Run (MapSession.start.session .twoAndAHalf oldFile) tr s ∧
      tr.map Event.act = [pressOpen, pressSave] ∧
      (machine .twoAndAHalf).step s pressOpen ≠ .error () ∧
      ∃ tr' t, (MapSession.machine (some oneBlock)).Run MapSession.start tr' t ∧
        t.session .twoAndAHalf oldFile = s ∧ tr'.map Event.act = [pressOpen, pressSave] := by
  obtain ⟨e₁, e₂, s, hrun, h₁, h₂⟩ := exists_run_reopened holds_oldFile
  obtain ⟨hthrows, hmap⟩ := session_refines holds_oldFile.rewritable MapSession.start_session hrun
    (onScreen_reopened h₁ h₂)
  obtain ⟨hnever, tr', t, hrun', ht, hacts⟩ := hmap _ holds_oldFile
  have hpressed : [e₁, e₂].map Event.act = [pressOpen, pressSave] := by
    rw [List.map_cons, List.map_singleton, h₁, h₂]
  refine ⟨_, s, hrun, hpressed, fun herror => ?_, tr', t, hrun', ht, hacts.trans hpressed⟩
  rcases (hthrows pressOpen onScreen_pressOpen).mp herror with ⟨htab, hrefuses⟩ | ⟨-, -, hnone, -⟩
  · exact hnever _ htab hrefuses
  · have hsaves := hnone e₂ (by simp)
    rw [h₂] at hsaves
    exact Bool.false_ne_true hsaves.symm

/-- What `LoadMap` finds in a text that the designer has written. -/
theorem loadFile_savedText {doc : Json} (h : doc.Kept Φ) (hw : w.size = mapSize) :
    ∃ w', loadFile Φ w (savedText Φ doc) = some w' ∧
      ∀ v, InMap v → w'.getCell v = itemsCell doc.items v floorCell := by
  obtain ⟨w', hload⟩ := Option.isSome_iff_exists.mp
    (loadItems_isSome_iff (w := w.reset).mpr h.loadable)
  refine ⟨w', ?_, fun v hv => ?_⟩
  · rw [loadFile, fromStream_savedText h.fits]
    exact hload
  · rw [getCell_loadItems (reset_size.trans hw) hload hv,
      getCell_reset ((inRange_iff_inMap hw).mpr hv)]

/-- In the document of a map every cell has one item. -/
theorem itemsCell_toJson {d : MapDict} {v : VI2d} (h : d.Designed) (hv : InMap v) :
    itemsCell d.toJson.items v floorCell = loadedCell d v := by
  have hw : (World.create mapSize.x mapSize.y).size = mapSize := rfl
  obtain ⟨w', hload, hcells⟩ := exists_loadMap hw h.keyed
  rw [loadMap, ← loadItems_toJson h] at hload
  rw [← hcells v hv, getCell_loadItems (reset_size.trans hw) hload hv,
    getCell_reset ((inRange_iff_inMap hw).mpr hv)]

/-- The file after the last frame that saved. -/
theorem exists_saved {e : Event Session SessionInput Unit} (h : (machine Φ).Run s₀ tr s)
    (hs : s₀.Kept Φ) (hscreen : ∀ e ∈ tr, e.act.OnScreen) (he : lastSave tr = some e)
    (hw : w.size = mapSize) :
    ∃ (shown : DocumentDesigner) (w' : World),
      e.src.designer.onUserUpdate e.act.input = some shown ∧
      Parser.fromStream Φ s.file = some shown.mapDict ∧ loadFile Φ w s.file = some w' ∧
      ∀ v, InMap v → w'.getCell v = itemsCell shown.mapDict.items v floorCell := by
  obtain ⟨shown, hshown, hfile⟩ := (run_file h).2 e he
  have hkept := (kept_of_lastSave h hs hscreen he hshown).mapDict
  obtain ⟨w', hload, hcells⟩ := loadFile_savedText hkept hw
  rw [hfile]
  exact ⟨shown, w', hshown, fromStream_savedText hkept.fits, hload, hcells⟩

/-- **A saved map is opened.** Whatever the file was, and whatever was done
after the last frame that saved, `LoadMap` reads the document of that frame,
and every cell has what the items say. Where the file held a map at the start,
or nothing that can be loaded, the document is the one of a map, and a cell
has what its own entry says. Before the first save the file is what it was. -/
theorem saved_opens (hfile : Rewritable Φ file) (hstart : start file = some s₀)
    (h : (machine Φ).Run s₀ tr s) (hscreen : ∀ e ∈ tr, e.act.OnScreen)
    (hw : w.size = mapSize) :
    (lastSave tr = none → s.file = file) ∧
    ∀ e, lastSave tr = some e → ∃ (shown : DocumentDesigner) (w' : World),
      e.src.designer.onUserUpdate e.act.input = some shown ∧
      Parser.fromStream Φ s.file = some shown.mapDict ∧ loadFile Φ w s.file = some w' ∧
      (∀ v, InMap v → w'.getCell v = itemsCell shown.mapDict.items v floorCell) ∧
      ∀ given, Holds Φ file given → ∃ t : MapDesigner, t.document = shown ∧
        ∀ v, InMap v → w'.getCell v = loadedCell t.mapDict v := by
  rw [MapSession.start_session (Φ := Φ), Option.some.injEq] at hstart
  subst hstart
  refine ⟨(run_file h).1, fun e he => ?_⟩
  obtain ⟨shown, w', hshown, hread, hload, hcells⟩ :=
    exists_saved h (MapSession.kept_start hfile) hscreen he hw
  refine ⟨shown, w', hshown, hread, hload, hcells, fun given hgiven => ?_⟩
  obtain ⟨tr', t, e', -, -, -, -, hdocument, hdesigned⟩ :=
    MapSession.exists_lastSave hgiven.designed h hscreen (fun _ _ _ => hgiven) he
  obtain rfl := Option.some.inj (hdocument.symm.trans hshown)
  refine ⟨_, rfl, fun v hv => ?_⟩
  rw [hcells v hv]
  exact itemsCell_toJson hdesigned hv

/-- A map is opened, changed and saved, and the client loads it. -/
theorem saved_opens_oldFile : ∃ tr s, ∃ (t : MapDesigner) (w' : World),
    (machine .twoAndAHalf).Run (MapSession.start.session .twoAndAHalf oldFile) tr s ∧
      tr.map Event.act = [pressOpen, pressSave] ∧
      loadFile .twoAndAHalf (World.create 64 64) s.file = some w' ∧
      ∀ v, InMap v → w'.getCell v = loadedCell t.mapDict v := by
  obtain ⟨e₁, e₂, s, hrun, h₁, h₂⟩ := exists_run_reopened holds_oldFile
  have hlast : lastSave [e₁, e₂] = some e₂ := by
    simp [lastSave, h₁, h₂, SessionInput.saves, pressOpen, pressSave, MapDesigner.press]
  obtain ⟨-, hsaved⟩ := saved_opens (w := World.create 64 64) holds_oldFile.rewritable
    MapSession.start_session hrun (onScreen_reopened h₁ h₂) rfl
  obtain ⟨shown, w', -, -, hload, -, hmap⟩ := hsaved e₂ hlast
  obtain ⟨t, -, hcells⟩ := hmap _ holds_oldFile
  refine ⟨_, s, t, w', hrun, ?_, hload, hcells⟩
  rw [List.map_cons, List.map_singleton, h₁, h₂]

/-- The frame does not open the file, and a wall is toggled only where it
keeps the saved map in step with the cells. -/
def KeepsInStep (e : Event Session SessionInput Unit) : Prop :=
  e.act.opens = false ∧
    ∃ t : MapDesigner, t.document = e.src.designer ∧ t.KeepsInStep e.act.input

theorem keepsInStep_congr {t t' : MapDesigner} {i : Input} (h : t.document = t'.document)
    (hkeeps : t.KeepsInStep i) : t'.KeepsInStep i := by
  obtain ⟨world, mapDict, vCursor, vTileCursor⟩ := t
  obtain ⟨world', mapDict', vCursor', vTileCursor'⟩ := t'
  obtain ⟨rfl, -, rfl, rfl⟩ := DocumentDesigner.mk.inj h
  exact hkeeps

/-- The map stays in step with what is shown. -/
theorem inStep_visited {tr : List (Event MapSession SessionInput Unit)} {t : MapSession}
    (h : (MapSession.machine given).Run MapSession.start tr t)
    (hkeeps : ∀ e ∈ tr, e.act.opens = false ∧ e.src.designer.KeepsInStep e.act.input) :
    ∀ m ∈ Machine.visited MapSession.start tr,
      m.designer.Editing ∧ m.designer.InStep := by
  refine h.visited_invariant (I := fun m => m.designer.Editing ∧ m.designer.InStep)
    (g := fun m i => i.opens = false ∧ m.designer.KeepsInStep i.input)
    ⟨MapDesigner.editing_onUserCreate, MapDesigner.inStep_onUserCreate⟩ hkeeps ?_
  intro e htakes hkeeps hsrc
  obtain ⟨hopens, hkeeps⟩ := hkeeps
  obtain ⟨hediting, hstep⟩ := hsrc
  have hframe := MapSession.frame_of_takes htakes
  rw [MapSession.frame_eq, hopens, if_neg Bool.false_ne_true, Option.some.injEq] at hframe
  rw [← hframe]
  exact ⟨hediting.onUserUpdate hstep,
    (MapDesigner.inStep_onUserUpdate_iff hediting hstep).mpr hkeeps⟩

/-- What the last frame that saved shows, and what the client loads. -/
theorem exists_shown {e : Event Session SessionInput Unit} (hstart : start file = some s₀)
    (h : (machine Φ).Run s₀ tr s) (hscreen : ∀ e ∈ tr, e.act.OnScreen)
    (hkeeps : ∀ e ∈ tr, KeepsInStep e) (he : lastSave tr = some e) (hw : w.size = mapSize) :
    ∃ (shown : DocumentDesigner) (w' : World),
      e.src.designer.onUserUpdate e.act.input = some shown ∧ shown.world.size = mapSize ∧
      Parser.fromStream Φ s.file = some shown.mapDict ∧ loadFile Φ w s.file = some w' ∧
      ∀ v, InMap v → SameDrawn (w'.getCell v) (shown.world.getCell v) := by
  rw [MapSession.start_session (Φ := Φ), Option.some.injEq] at hstart
  subst hstart
  -- no frame opens the file, so it does not matter what it held
  have hnone : ∀ d : MapDict, none = some d → d.Designed := nofun
  obtain ⟨tr', t, e', hrun, rfl, hmem, rfl, hshown, hdesigned⟩ :=
    MapSession.exists_lastSave hnone h hscreen
      (fun e he hopens => nomatch (hkeeps e he).1.symm.trans hopens) he
  have hkeeps' : ∀ e ∈ tr', e.act.opens = false ∧ e.src.designer.KeepsInStep e.act.input := by
    intro e he
    obtain ⟨hopens, u, hu, hstep⟩ := hkeeps _ (List.mem_map_of_mem he)
    exact ⟨hopens, keepsInStep_congr hu hstep⟩
  obtain ⟨hediting, hstep⟩ := inStep_visited hrun hkeeps' _ (hrun.src_mem_visited e' hmem)
  obtain ⟨w', hload, hcells⟩ :=
    loadFile_savedText (Φ := Φ) ⟨hdesigned.loadable, hdesigned.fits⟩ hw
  obtain ⟨shown, hupdate, hfile⟩ := (run_file h).2 _ he
  obtain rfl := Option.some.inj (hshown.symm.trans hupdate)
  rw [hfile]
  refine ⟨_, w', hshown, (hediting.onUserUpdate hstep).size, fromStream_savedText hdesigned.fits,
    hload, fun v hv => ?_⟩
  rw [hcells v hv, itemsCell_toJson hdesigned hv]
  exact (MapDesigner.inStep_onUserUpdate_iff hediting hstep).mpr (hkeeps' e' hmem).2 v hv

/-- **From the designer to the client.** In a session that opens no file and
whose frames keep the map in step, the client that loads the file draws every
cell as the designer showed it in the last frame that saved. -/
theorem drawn_as_shown (hstart : start file = some s₀) (h : (machine Φ).Run s₀ tr s)
    (hscreen : ∀ e ∈ tr, e.act.OnScreen) (hkeeps : ∀ e ∈ tr, KeepsInStep e)
    (hw : w.size = mapSize) :
    ∀ e, lastSave tr = some e → ∃ (shown : DocumentDesigner) (w' : World),
      e.src.designer.onUserUpdate e.act.input = some shown ∧
      loadFile Φ w s.file = some w' ∧
      ∀ v, InMap v → SameDrawn (w'.getCell v) (shown.world.getCell v) := by
  intro e he
  obtain ⟨shown, w', hshown, -, -, hload, hsame⟩ := exists_shown hstart h hscreen hkeeps he hw
  exact ⟨shown, w', hshown, hload, hsame⟩

/-- The session of one frame, over any file. -/
theorem run_pressSave (Φ : FloatText) (file : List UInt8) :
    (machine Φ).Run (MapSession.start.session Φ file)
    [⟨MapSession.start.session Φ file, pressSave, (),
      (MapSession.start.edited pressSave).session Φ file⟩]
    ((MapSession.start.edited pressSave).session Φ file) := by
  have hframe : (MapSession.start.session Φ file).frame Φ pressSave =
      some ((MapSession.start.edited pressSave).session Φ file) := by
    have hgiven : pressSave.opens = true → Holds Φ file none := nofun
    rw [MapSession.session_frame MapSession.designed_start onScreen_pressSave hgiven,
      MapSession.frame_eq]
    rfl
  exact .snoc (e := ⟨_, pressSave, (), _⟩) .nil (takes_of_frame hframe)

theorem lastSave_pressSave (s t : Session) :
    lastSave [⟨s, pressSave, (), t⟩] = some ⟨s, pressSave, (), t⟩ := rfl

theorem keepsInStep_pressSave (Φ : FloatText) (file : List UInt8) (t : Session) :
    KeepsInStep ⟨MapSession.start.session Φ file, pressSave, (), t⟩ :=
  ⟨rfl, MapDesigner.onUserCreate, rfl, MapDesigner.keepsInStep_space⟩

theorem drawn_as_shown_pressSave :
    ∃ (shown : DocumentDesigner) (w' : World),
      (MapSession.start.session .twoAndAHalf oldFile).designer.onUserUpdate pressSave.input =
        some shown ∧
      loadFile .twoAndAHalf (World.create 64 64)
        ((MapSession.start.edited pressSave).session .twoAndAHalf oldFile).file = some w' ∧
      ∀ v, InMap v → SameDrawn (w'.getCell v) (shown.world.getCell v) := by
  have hdrawn := drawn_as_shown (w := World.create 64 64) MapSession.start_session
    (run_pressSave .twoAndAHalf oldFile)
    (List.forall_mem_singleton.mpr onScreen_pressSave)
    (List.forall_mem_singleton.mpr (keepsInStep_pressSave _ _ _)) rfl
  obtain ⟨shown, w', hshown, hload, hsame⟩ := hdrawn _ (lastSave_pressSave _ _)
  exact ⟨shown, w', hshown, hload, hsame⟩

end Session

end AmongUs
