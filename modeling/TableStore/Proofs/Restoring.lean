import TableStore.Proofs.Cuts
import TableStore.Proofs.Lines
import TableStore.Proofs.Replay

/-!
# Dumps that are fed to a shell

- the command for a dump prints its statements, each with a semicolon (`Shell.runCommand_dump`), and the lines of what
  it prints are those of the statements (`Shell.lines_dumpText`);
- a statement that is not broken is carried out as it stands (`Shell.feedAll_run`); of one that is broken only a part
  is, up to a line feed in a quoted text, and that is not read (`Shell.err_feedAll_of_broken`);
- so a dump restores a table through a shell exactly if none of its statements is broken
  (`Program.dump_is_restored`).
-/

namespace TableStore

/-! ## Words -/

namespace Text

theorem words_append {w : List Char} (hw : ∀ c ∈ w, isBlank c = false) (hne : w ≠ []) (rest : List Char) :
    words (w ++ ' ' :: rest) = w :: words rest := by
  induction w with
  | nil => exact absurd rfl hne
  | cons c w ih =>
    obtain ⟨hc, hw⟩ := List.forall_mem_cons.1 hw
    rw [List.cons_append, words, if_neg (by simp [hc])]
    cases w with
    | nil =>
      have hrest : words ([] ++ ' ' :: rest) = words rest := by rw [List.nil_append, words, if_pos (by decide)]
      rw [hrest]
      cases words rest with
      | nil => rfl
      | cons v vs => rfl
    | cons d w =>
      have hd : isBlank d = false := hw d List.mem_cons_self
      rw [ih hw (List.cons_ne_nil d w)]
      simp [hd]

theorem words_eq_singleton {w : List Char} (hw : ∀ c ∈ w, isBlank c = false) (hne : w ≠ []) : words w = [w] := by
  induction w with
  | nil => exact absurd rfl hne
  | cons c w ih =>
    obtain ⟨hc, hw⟩ := List.forall_mem_cons.1 hw
    rw [words, if_neg (by simp [hc])]
    cases w with
    | nil => rfl
    | cons d w =>
      have hd : isBlank d = false := hw d List.mem_cons_self
      rw [ih hw (List.cons_ne_nil d w)]
      simp [hd]

end Text

/-! ## A shell on an engine -/

namespace Shell

open Attempt Engine Text Printed

/-- A shell that works on an engine. -/
def ofEngine (e : Engine) : Shell := { settings := e.settings, session := e.session }

/-- What is printed of a dump: a line for each statement, with a semicolon. -/
def dumpText (ts : List String) : String := String.join (ts.map fun t => t ++ ";\n")

variable {e : Engine} {i j : Image} {table : String} {c : Container}

theorem foldl_say_semicolon : ∀ (ts : List String) (out : String),
    ts.foldl (fun p t => p ++ say (t ++ ";")) ({ out } : Printed) = { out := out ++ dumpText ts }
  | [], out => by
    rw [dumpText, List.map_nil, String.join_nil, String.append_empty]
    rfl
  | t :: ts, out => by
    have hsay : ({ out } : Printed) ++ say (t ++ ";") = { out := out ++ (t ++ ";\n") } := by
      have hline : t ++ ";" ++ "\n" = t ++ ";\n" := String.append_assoc
      change (⟨out ++ (t ++ ";" ++ "\n"), "" ++ ""⟩ : Printed) = _
      rw [hline, String.append_empty]
    rw [List.foldl_cons, hsay, foldl_say_semicolon ts, dumpText, dumpText, List.map_cons, String.join_cons,
      String.append_assoc]

/-- The command prints the dump. -/
theorem runCommand_dump (h : e.Shows i) (hc : i.find? table = some c) :
    ((ofEngine e).runCommand (.dump table)).2 = { out := dumpText (dumped i table c) } := by
  have hdump : Engine.dump (ofEngine e).settings table (ofEngine e).session =
      (.ok (dumped i table c), (serve .ready e).2.session) := dump_of_shows h hc
  have hprinted := foldl_say_semicolon (dumped i table c) ""
  rw [String.empty_append] at hprinted
  simp only [runCommand, perform, hdump]
  exact hprinted

/-! ### The command with the name of a table -/

/-- The command for the dump of a table whose name is one word that can be typed. -/
theorem feed_dump {s : Shell} (hs : s.pending = "") (hne : table ≠ "")
    (hname : ∀ ch ∈ table.toList, isBlank ch = false ∧ ch ≠ Typed.backspace) :
    s.feed (".dump " ++ table) = s.runCommand (.dump table) := by
  have hblank : ∀ ch ∈ table.toList, isBlank ch = false := fun ch hch => (hname ch hch).1
  have hne' : table.toList ≠ [] := by simpa using hne
  have htext : (".dump " ++ table).toList = ".dump".toList ++ ' ' :: table.toList := by
    rw [String.toList_append]
    rfl
  have hback : Typed.backspace ∉ ".dump".toList ++ ' ' :: table.toList := by
    rw [List.mem_append, List.mem_cons]
    rintro (h | h | h)
    · exact absurd h (by decide)
    · exact absurd h (by decide)
    · exact (hname _ h).2 rfl
  have htrim : trim (".dump".toList ++ ' ' :: table.toList) = ".dump".toList ++ ' ' :: table.toList := by
    refine trim_eq_self (fun ch hch => ?_) fun ch hch => ?_
    · cases hch
      decide
    · refine hblank ch (List.mem_of_getLast? ?_)
      rwa [List.getLast?_append_of_ne_nil _ (List.cons_ne_nil _ _), List.getLast?_cons_of_ne_nil hne'] at hch
  have hdump : ∀ ch ∈ ".dump".toList, isBlank ch = false := forall_mem_of_all (by decide)
  have hread : Command.read? (".dump".toList ++ ' ' :: table.toList) = some (.dump table) := by
    rw [Command.read?, words_append hdump (by decide), words_eq_singleton hblank hne', List.map_cons,
      List.map_cons, String.ofList_toList, String.ofList_toList]
    rfl
  rw [← @String.ofList_toList (".dump " ++ table), htext, feed_ofList hback, take, htrim, hs, hread]
  rfl

/-! ### What the shell reads of a dump -/

theorem toList_semicolon (t : String) : (t ++ ";").toList = t.toList ++ [';'] := String.toList_append

/-- The lines of a dump are those of its statements. -/
theorem lines_dumpText : ∀ {ts : List String}, (∀ t ∈ ts, Returnless (t ++ ";").toList) →
    lines (dumpText ts).toList = ts.flatMap fun t => lines (t ++ ";").toList
  | [], _ => rfl
  | t :: ts, h => by
    obtain ⟨ht, hts⟩ := List.forall_mem_cons.1 h
    have htext : (dumpText (t :: ts)).toList = t.toList ++ ';' :: '\n' :: (dumpText ts).toList := by
      rw [dumpText, List.map_cons, String.join_cons, String.toList_append, String.toList_append, List.append_assoc]
      rfl
    rw [toList_semicolon] at ht
    rw [htext, lines_append (by decide) _ ht, lines_dumpText hts, List.flatMap_cons, toList_semicolon]

/-- A text that is carried out without an error prints none. -/
theorem runText_of_serve {text : String} (htrim : trim text.toList = text.toList) (hne : text.toList ≠ [])
    {a : Answer} (h : (serve (.run text) e).1 = .ok a) :
    ∃ out, (ofEngine e).runText text = (ofEngine (serve (.run text) e).2, { out }) := by
  have hempty : text.toList.isEmpty = false := by simpa using hne
  rw [serve_run] at h
  rw [serve_run, runText, htrim, hempty, if_neg Bool.false_ne_true, String.ofList_toList, perform]
  have hsame : Engine.run (ofEngine e).settings text (ofEngine e).session = Engine.run e.settings text e.session := rfl
  rw [hsame]
  cases hr : Engine.run e.settings text e.session with
  | mk outcome session =>
    rw [hr] at h
    cases outcome with
    | error err => cases h
    | ok r =>
      dsimp only
      cases hm : r.message? with
      | none => exact ⟨_, by rw [shownResult, hm]; rfl⟩
      | some message => exact ⟨_, by rw [shownResult, hm]; rfl⟩

/-- The text of a statement that the shell takes every character of: it starts with neither a blank nor a dot, is read
as well with a semicolon, and is not read up to a line feed. -/
structure Feedable (t : String) : Prop where
  starts : ∃ c cs, t.toList = c :: cs ∧ isBlank c = false ∧ c ≠ '.'
  semicolon : Statement.parse (t ++ ";") = Statement.parse t
  cut : ∀ front back, (t ++ ";").toList = front ++ '\n' :: back →
    ∃ e, Statement.parse (String.ofList (trimEnd front)) = .error e
  typable : Typable (t ++ ";").toList

theorem Feedable.exists_cons {t : String} (h : Feedable t) :
    ∃ c cs, (t ++ ";").toList = c :: (cs ++ [';']) ∧ isBlank c = false ∧ c ≠ '.' := by
  obtain ⟨c, cs, hstart, hc⟩ := h.starts
  exact ⟨c, cs, by rw [toList_semicolon, hstart]; rfl, hc⟩

/-- A text that is not read prints an error. -/
theorem err_runText_of_parse {s : Shell} {front : List Char} {err : Error}
    (h : Statement.parse (String.ofList (trim front)) = .error err) (hne : trim front ≠ []) :
    (s.runText (String.ofList front)).2.err ≠ "" := by
  have hempty : (trim front).isEmpty = false := by simpa using hne
  have hrun : ∃ e s', Engine.run s.settings (String.ofList (trim front)) s.session = (.error e, s') := by
    cases hr : Engine.ready s.settings s.session with
    | mk outcome s' =>
      cases outcome with
      | error e => exact ⟨e, s', by rw [Engine.run, bind_apply, hr]⟩
      | ok b => exact ⟨err, s', by rw [run_of_ready hr, h]⟩
  obtain ⟨e, s', hrun⟩ := hrun
  rw [runText, String.toList_ofList, hempty, if_neg Bool.false_ne_true, perform, hrun]
  simp [complain]

/-- **A statement that succeeds is fed without an error**, and the engine goes on from there. -/
theorem feedAll_run {t : String} (ht : Feedable t) (hunbroken : Unbroken (t ++ ";").toList) {a : Answer}
    (ha : (serve (.run t) e).1 = .ok a) : ∃ out, ∀ rest,
      (ofEngine e).feedAll ((lines (t ++ ";").toList).map String.ofList ++ rest) =
        (((ofEngine (serve (.run t) e).2).feedAll rest).1,
          { out } ++ ((ofEngine (serve (.run t) e).2).feedAll rest).2) := by
  obtain ⟨c, cs, htext, hc⟩ := ht.exists_cons
  have hrun : serve (.run (t ++ ";")) e = serve (.run t) e := by
    rw [serve_run, serve_run, Engine.run, Engine.run, ht.semicolon]
  have htrim : trim (t ++ ";").toList = (t ++ ";").toList := by
    refine trim_eq_self (fun d hd => ?_) fun d hd => ?_
    · rw [htext] at hd
      cases hd
      exact hc.1
    · rw [toList_semicolon, List.getLast?_concat] at hd
      cases hd
      decide
  rw [← hrun] at ha
  obtain ⟨out, hout⟩ := runText_of_serve htrim (by rw [htext]; exact List.cons_ne_nil _ _) ha
  refine ⟨out, fun rest => ?_⟩
  have hfeed := feedAll_statement (s := ofEngine e) hc (htext ▸ ht.typable) (htext ▸ hunbroken) rfl rfl rest
  rwa [← htext, String.ofList_toList, hout, hrun] at hfeed

/-- Statements that succeed are fed without an error if none is broken. -/
theorem feedAll_runs : ∀ {ts : List String} {e : Engine}, (∀ t ∈ ts, Feedable t) →
    (∀ t ∈ ts, Unbroken (t ++ ";").toList) → Succeed (ts.map .run) e →
    ∃ out, (ofEngine e).feedAll ((ts.flatMap fun t => lines (t ++ ";").toList).map String.ofList) =
      (ofEngine (after (ts.map .run) e), { out })
  | [], e, _, _, _ => ⟨"", rfl⟩
  | t :: ts, e, h, hunbroken, hs => by
    obtain ⟨ht, hts⟩ := List.forall_mem_cons.1 h
    obtain ⟨hu, hus⟩ := List.forall_mem_cons.1 hunbroken
    obtain ⟨⟨a, ha⟩, hs⟩ := hs
    obtain ⟨out, hout⟩ := feedAll_run ht hu ha
    obtain ⟨out', hout'⟩ := feedAll_runs hts hus hs
    refine ⟨out ++ out', ?_⟩
    rw [List.flatMap_cons, List.map_append, hout, hout']
    rfl

/-- **If one of them is broken, an error is printed.** -/
theorem err_feedAll_of_broken : ∀ {ts : List String} {e : Engine}, (∀ t ∈ ts, Feedable t) →
    (¬∀ t ∈ ts, Unbroken (t ++ ";").toList) → Succeed (ts.map .run) e →
    ((ofEngine e).feedAll ((ts.flatMap fun t => lines (t ++ ";").toList).map String.ofList)).2.err ≠ ""
  | [], e, _, hbroken, _ => absurd (fun _ h => nomatch h) hbroken
  | t :: ts, e, h, hbroken, hs => by
    obtain ⟨ht, hts⟩ := List.forall_mem_cons.1 h
    obtain ⟨⟨a, ha⟩, hs⟩ := hs
    rw [List.flatMap_cons, List.map_append]
    by_cases hu : Unbroken (t ++ ";").toList
    · obtain ⟨out, hout⟩ := feedAll_run ht hu ha
      have hlater := err_feedAll_of_broken (e := (serve (.run t) e).2) hts
        (fun hus => hbroken (List.forall_mem_cons.2 ⟨hu, hus⟩)) hs
      rw [hout]
      change "" ++ _ ≠ ""
      rwa [String.empty_append]
    · obtain ⟨c, cs, htext, hc⟩ := ht.exists_cons
      rw [htext] at hu
      obtain ⟨front, back, rest', hcut, hfeed⟩ := feedAll_broken (s := ofEngine e) hc (htext ▸ ht.typable) hu rfl rfl
        ((ts.flatMap fun t => lines (t ++ ";").toList).map String.ofList)
      obtain ⟨err, herr⟩ := ht.cut front back (htext.trans hcut)
      obtain ⟨front, rfl⟩ : ∃ front', front = c :: front' := by
        cases front with
        | nil => exact absurd (List.cons.inj hcut).1 (inLine_of_not_isBlank hc.1).1
        | cons d front => exact ⟨front, by rw [(List.cons.inj hcut).1]⟩
      rw [← trim_of_cons hc.1] at herr
      have herror := err_runText_of_parse (s := ofEngine e) herr (trim_ne_nil hc.1 front)
      rw [htext, hfeed]
      exact fun he => herror (String.append_eq_empty_iff.1 he).1

/-! ### Insertions of a dump -/

/-- The texts of a dump can be fed, if the shell takes every character of them. -/
theorem feedable_dumped (ha : i.Aligned) (hc : i.find? table = some c) (hboolFree : c.BoolFree)
    (hfinite : ∀ r ∈ c.scan, r.Finite) (htypable : ∀ t ∈ dumped i table c, Typable (t ++ ";").toList) :
    ∀ t ∈ dumped i table c, Feedable t := by
  obtain ⟨t, ht, hpath⟩ := exists_table ha hc
  intro text htext
  have htypable := htypable text htext
  obtain ⟨r, hr, rfl⟩ := List.mem_map.1 htext
  have hreadable := readable_insertion ht (List.ne_nil_of_mem hpath) (hboolFree r hr) (hfinite r hr)
  rw [insertion_eq ht] at hreadable htypable ⊢
  refine ⟨⟨'I', _, by rw [String.toList_ofList]; rfl, by decide⟩, ?_, fun front back hcut => ?_, htypable⟩
  · have hparse := Statement.parse_insert_semicolon hreadable
    rw [String.ofList_append] at hparse
    exact hparse.trans (Statement.parse_write hreadable).symm
  · rw [toList_semicolon, String.toList_ofList] at hcut
    exact Statement.parse_cut hreadable hcut

/-- What the shell prints first is no error. -/
theorem start_of_shows (location : String) {settings : Settings} {medium : Medium}
    (h : Shows { settings, session := { store := { medium } } } i) :
    ∃ out, start location settings medium =
      (.ok (ofEngine (serve .ready { settings, session := { store := { medium } } }).2), { out }) := by
  obtain ⟨b, hr⟩ := exists_of_shows h
  exact ⟨_, by rw [start, hr]; rfl⟩

end Shell

namespace Program

open Engine Shell

/-- A new session on the medium that requests left tracks what they track. -/
theorem tracks_of_medium {f : Engine} (hf : f.IsNew) {rs : List Request} (hrs : ∀ r ∈ rs, r.Migrates)
    {medium : Medium} (hmedium : (after rs f).session.store.medium = medium) :
    Session.Tracks Image.Aligned Image.Aligned { store := { medium } } := by
  have htracks := tracks_aligned_after hf hrs
  cases hs : (after rs f).session with
  | mk store live =>
    rw [hs] at htracks hmedium
    exact Session.Tracks.lasting.medium (n := 0) (Session.Tracks.lasting.restarted (n := 0) htracks) hmedium.symm

/-- How a whole run ends, if the store can be opened. -/
theorem runOn_of_start {location : String} {settings : Settings} {medium : Medium} {s : Shell} {greeting : String}
    (h : Shell.start location settings medium = (.ok s, { out := greeting })) (input : String) :
    (runOn location settings medium input).1.printed.err =
        (s.feedAll ((Text.lines input.toList).map String.ofList)).2.err ∧
      (runOn location settings medium input).1.code =
        (s.feedAll ((Text.lines input.toList).map String.ofList)).1.code := by
  have hfarewell : ∀ s : Shell, s.farewell.err = "" := fun s => by
    rw [farewell]
    split <;> rfl
  simp only [runOn, h, and_true]
  change "" ++ _ ++ (farewell _).err = _
  rw [hfarewell, String.empty_append, String.append_empty]

/-- **What a dump prints restores the table, unless a statement is broken.** Take any table of an engine over a new
store that was only asked by the texts of statements and for other names of tables, with no real in it that is not
finite; its name is one word that can be typed, and so can every character of the statements that the command prints.
Feed what it prints to a shell on the store of any other engine, if the store opens and has a table of the same name
and definition without records. Then no error is printed exactly if no statement has, before its last line, a line that
is blank or ends in a semicolon; and in this case the shell goes through the whole text, and ends with the same columns
and rows. -/
theorem dump_is_restored {e f : Engine} (he : e.IsNew) (calls : List Call) (hf : f.IsNew) (rs : List Request)
    (hrs : ∀ r ∈ rs, r.Migrates) {i j : Image} {table : String} {c d : Container}
    (hi : (after (calls.map Call.request) e).Shows i) (hc : i.find? table = some c) (hfinite : ∀ r ∈ c.scan, r.Finite)
    (hne : table ≠ "") (hname : ∀ ch ∈ table.toList, Text.isBlank ch = false ∧ ch ≠ Typed.backspace)
    (htypable : ∀ t ∈ dumped i table c, Typable (t ++ ";").toList) (location : String) (settings : Settings)
    {medium : Medium} (hmedium : (after rs f).session.store.medium = medium)
    (hj : Shows { settings, session := { store := { medium } } } j) (hd : j.find? table = some d)
    (hempty : d.records = .empty) (hsame : j.catalog.find? table = i.catalog.find? table) :
    ∃ text s greeting, ((ofEngine (after (calls.map Call.request) e)).feed (".dump " ++ table)).2 = { out := text } ∧
      (serve (.run (selection table)) (after (calls.map Call.request) e)).1 = .ok (.resultSet (rowsOf i table c)) ∧
      Shell.start location settings medium = (.ok s, { out := greeting }) ∧
      ((runOn location settings medium text).1.printed.err = "" ↔
        ∀ t ∈ dumped i table c, Unbroken (t ++ ";").toList) ∧
      ((runOn location settings medium text).1.printed.err = "" →
        (runOn location settings medium text).1.code = 0 ∧
        let s' := (s.feedAll ((Text.lines text.toList).map String.ofList)).1
        (Engine.run s'.settings (selection table) s'.session).1 = .ok (rowsOf i table c)) := by
  obtain ⟨-, ha, hkeyed, hboolFree⟩ := shown_after he hi
  obtain ⟨hopen, ha'⟩ := commits_of_tracks (tracks_of_medium hf hrs hmedium) hj (Store.steadfast_of_nil rfl rfl)
  obtain ⟨hsucceed, j', hopen', hcopied⟩ := succeed_dumped ha hkeyed hboolFree hc hfinite hopen ha' hd hempty hsame
  obtain ⟨d', hd', hrows, -⟩ := exists_of_copied hcopied
  obtain ⟨greeting, hstart⟩ := start_of_shows location hj
  have hfeedable := feedable_dumped ha hc (hboolFree.of_find? hc) hfinite htypable
  have hlines := lines_dumpText fun t ht => (htypable t ht).returns
  -- what is fed are the lines of the statements
  have hfed := fun hunbroken => feedAll_runs hfeedable hunbroken hsucceed
  have hunbroken := fun herr => by_contra fun hbroken => err_feedAll_of_broken hfeedable hbroken hsucceed herr
  rw [← hlines] at hfed hunbroken
  obtain ⟨herr, hcode⟩ := runOn_of_start hstart (dumpText (dumped i table c))
  refine ⟨dumpText (dumped i table c), _, greeting, ?_, serve_selection hi hc, hstart, ?_, ?_⟩
  · rw [feed_dump rfl hne hname, runCommand_dump hi hc]
  · rw [herr]
    refine ⟨hunbroken, fun h => ?_⟩
    obtain ⟨out, hout⟩ := hfed h
    rw [hout]
  · rw [herr, hcode]
    intro h
    obtain ⟨out, hout⟩ := hfed (hunbroken h)
    rw [hout]
    refine ⟨rfl, ?_⟩
    exact (congrArg Prod.fst (run_selection (shows_of_live hopen'.live) hd')).trans (congrArg Except.ok hrows)

/-- An engine with a table that has a text. -/
def noting (note : String) : List Call :=
  [.run "CREATE TABLE t (id INTEGER, x TEXT)", .run ("INSERT INTO t VALUES (1, '" ++ note ++ "')")]

/-- The same table without records. -/
def emptying : List Request := [.run "CREATE TABLE t (id INTEGER, x TEXT)"]

/-- The keyspace that holds it. -/
def emptied : Medium := (after emptying (overKeyspace { seeded := false } [])).session.store.medium

/-- A text is not restored if one of its lines ends in a semicolon, and it is if the line ends in a colon. -/
theorem semicolon_at_line_end_breaks_dump :
    (∃ text, ((ofEngine (after ((noting "a;\nb").map Call.request) (inMemory { seeded := false } []))).feed
        (".dump " ++ "t")).2 = { out := text } ∧ (runOn "db" {} emptied text).1.printed.err ≠ "") ∧
    ∃ text, ((ofEngine (after ((noting "a:\nb").map Call.request) (inMemory { seeded := false } []))).feed
        (".dump " ++ "t")).2 = { out := text } ∧ (runOn "db" {} emptied text).1.printed.err = "" := by
  have htarget : ((serve .ready { settings := {}, session := { store := { medium := emptied } } }).2.session.live.bind
      fun j => (j.find? "t").map fun d => (j.catalog.find? "t", d.records)) =
        some (some ⟨"t", [⟨"id", .integer⟩, ⟨"x", .text⟩]⟩, .empty) := by decide +kernel
  have hmedium : (after emptying (overKeyspace { seeded := false } [])).session.store.medium = emptied := rfl
  have hcase : ∀ note unbroken, ((serve .ready (after ((noting note).map Call.request)
      (inMemory { seeded := false } []))).2.session.live.bind fun i => (i.find? "t").map fun c =>
        (i.catalog.find? "t", decide (∀ r ∈ c.scan, r.Finite), decide (∀ t ∈ dumped i "t" c, Typable (t ++ ";").toList),
          decide (∀ t ∈ dumped i "t" c, Unbroken (t ++ ";").toList))) =
        some (some ⟨"t", [⟨"id", .integer⟩, ⟨"x", .text⟩]⟩, true, true, unbroken) →
      ∃ text, ((ofEngine (after ((noting note).map Call.request) (inMemory { seeded := false } []))).feed
        (".dump " ++ "t")).2 = { out := text } ∧
          ((runOn "db" {} emptied text).1.printed.err = "" ↔ unbroken = true) := by
    intro note unbroken hsource
    obtain ⟨i, hi, hc⟩ := Option.bind_eq_some_iff.1 hsource
    obtain ⟨c, hc, hshown⟩ := Option.map_eq_some_iff.1 hc
    obtain ⟨ht, hshown⟩ := Prod.mk.inj hshown
    obtain ⟨hfinite, hshown⟩ := Prod.mk.inj hshown
    obtain ⟨htypable, hunbroken⟩ := Prod.mk.inj hshown
    obtain ⟨j, hj, hd⟩ := Option.bind_eq_some_iff.1 htarget
    obtain ⟨d, hd, hshown⟩ := Option.map_eq_some_iff.1 hd
    obtain ⟨ht', hempty⟩ := Prod.mk.inj hshown
    obtain ⟨text, s, greeting, hprinted, -, -, herr, -⟩ := dump_is_restored (isNew_inMemory _ _) (noting note)
      (isNew_overKeyspace _ _) emptying (by simp [emptying, Request.Migrates]) hi hc (of_decide_eq_true hfinite)
      (by decide) (Text.forall_mem_of_all (by decide)) (of_decide_eq_true htypable) "db" {} hmedium hj hd hempty
      (ht'.trans ht.symm)
    refine ⟨text, hprinted, herr.trans ?_⟩
    rw [← hunbroken, decide_eq_true_iff]
  obtain ⟨text, hprinted, herr⟩ := hcase "a;\nb" false (by decide +kernel)
  obtain ⟨text', hprinted', herr'⟩ := hcase "a:\nb" true (by decide +kernel)
  exact ⟨⟨text, hprinted, fun h => Bool.false_ne_true (herr.1 h)⟩, text', hprinted', herr'.2 rfl⟩

end Program

end TableStore
