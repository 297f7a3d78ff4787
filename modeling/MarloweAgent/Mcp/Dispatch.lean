import MarloweAgent.Mcp.Attribution
import Mathlib.Data.List.Nodup

/-! Where a call of a registered id goes. The id is a server's id and a tool's name
around a separator, and a call is cut at the first separator: the two agree exactly for
the servers whose id leaves no earlier one to find. -/

namespace MarloweAgent.Mcp
open Contract Library Tools Permission Loop

/-! ## Joining and cutting -/

section Separators

variable {α : Type} {sep pre post : List α} {i : Nat}

/-- Whether a separator stands before the joint depends on what is before the joint. -/
theorem prefix_drop_join_iff (h : i < pre.length) :
    sep <+: (pre ++ sep ++ post).drop i ↔ sep <+: (pre ++ sep.dropLast).drop i := by
  have htake : (pre ++ sep ++ post).take (pre.length + (sep.length - 1)) = pre ++ sep.dropLast := by
    rw [List.append_assoc, List.take_length_add_append, List.take_append_of_le_length (by omega),
      List.dropLast_eq_take]
  have hdrop : (pre ++ sep.dropLast).drop i =
      ((pre ++ sep ++ post).drop i).take (pre.length + (sep.length - 1) - i) := by
    rw [← htake, List.drop_take]
  rw [hdrop, List.prefix_take_iff]
  exact ⟨fun hpre => ⟨hpre, by omega⟩, And.left⟩

/-- No separator stands where too little is left for one. -/
theorem lt_of_prefix_drop (hsep : sep ≠ []) (h : sep <+: (pre ++ sep.dropLast).drop i) :
    i < pre.length := by
  have hlen := h.length_le
  have hpos := List.length_pos_iff.mpr hsep
  rw [List.length_drop, List.length_append, List.length_dropLast] at hlen
  omega

end Separators

theorem find_eq_some_iff {s sub : List Char} {pos : Nat} (hpos : pos ≤ s.length) :
    Text.find s sub = some pos ↔ sub <+: s.drop pos ∧ ∀ i < pos, ¬ sub <+: s.drop i := by
  refine ⟨Text.find_eq_some, fun ⟨hfound, hbefore⟩ => List.find?_range_eq_some.mpr ⟨?_, ?_, ?_⟩⟩
  · exact List.isPrefixOf_iff_prefix.mpr hfound
  · exact List.mem_range.mpr (by omega)
  · intro i hi
    have hnot : sub.isPrefixOf (s.drop i) = false := by
      rw [Bool.eq_false_iff, ne_eq, List.isPrefixOf_iff_prefix]
      exact hbefore i hi
    rw [hnot]
    rfl

theorem contains_eq_true_iff {s sub : String} :
    Text.contains s sub = true ↔ ∃ i, i ≤ s.toList.length ∧ sub.toList <+: s.toList.drop i := by
  simp only [Text.contains, List.any_eq_true, List.mem_range, List.isPrefixOf_iff_prefix,
    Nat.lt_succ_iff]

/-! ## Namespaced ids -/

/-- The id a server's tool is registered under. -/
def namespaced (server tool : String) : ToolId := ⟨server ++ "__" ++ tool⟩

/-- The server's id does not end in an underscore, and has no two in a row. -/
def separable (server : String) : Bool := !Text.contains (server ++ "_") "__"

/-- A separator stands before the one an id was joined with. -/
def Early (server tool : String) : Prop :=
  ∃ i < server.toList.length, "__".toList <+: (namespaced server tool).text.toList.drop i

theorem early_iff (server tool : String) : Early server tool ↔ separable server = false := by
  have hlist : (namespaced server tool).text.toList = server.toList ++ "__".toList ++ tool.toList := by
    simp only [namespaced, String.toList_append]
  have hshort : (server ++ "_").toList = server.toList ++ "__".toList.dropLast := by
    rw [String.toList_append]
    rfl
  rw [separable, Bool.not_eq_false', contains_eq_true_iff, Early, hlist, hshort]
  constructor
  · rintro ⟨i, hi, hpre⟩
    exact ⟨i, by rw [List.length_append]; omega, (prefix_drop_join_iff hi).mp hpre⟩
  · rintro ⟨i, -, hpre⟩
    have hi := lt_of_prefix_drop (by decide) hpre
    exact ⟨i, hi, (prefix_drop_join_iff hi).mpr hpre⟩

/-- The id of a server that is separable is cut where it was joined. -/
theorem splitOnce_separable {server : String} (h : separable server = true) (tool : String) :
    splitOnce (namespaced server tool).text "__" = some (server, tool) := by
  have hlist : (namespaced server tool).text.toList = server.toList ++ ("__".toList ++ tool.toList) := by
    simp only [namespaced, String.toList_append, List.append_assoc]
  have hfind : Text.find (namespaced server tool).text.toList "__".toList =
      some server.toList.length := by
    refine (find_eq_some_iff ?_).mpr ⟨?_, fun i hi hpre => ?_⟩
    · rw [hlist, List.length_append]
      omega
    · rw [hlist, List.drop_left]
      exact List.prefix_append _ _
    · have hearly := (early_iff server tool).mp ⟨i, hi, hpre⟩
      rw [h] at hearly
      cases hearly
  rw [splitOnce, hfind, Option.map_some, hlist, List.take_left, ← List.drop_drop, List.drop_left,
    List.drop_left, String.ofList_toList, String.ofList_toList]

/-- The id of any other is cut short of the server's id. -/
theorem splitOnce_inseparable {server : String} (h : separable server = false) (tool : String) :
    ∃ other rest, splitOnce (namespaced server tool).text "__" = some (other, rest) ∧
      other ≠ server := by
  obtain ⟨i, hi, hpre⟩ := (early_iff server tool).mpr h
  cases hfind : Text.find (namespaced server tool).text.toList "__".toList with
  | none => exact absurd hpre (Text.find_eq_none hfind i)
  | some pos =>
    have hle : pos ≤ i := by
      by_contra hlt
      exact (Text.find_eq_some hfind).2 i (by omega) hpre
    refine ⟨_, _, by rw [splitOnce, hfind]; rfl, fun heq => ?_⟩
    have hlen := congrArg (fun s => s.toList.length) heq
    simp only [String.toList_ofList, List.length_take] at hlen
    omega

theorem namespaced_injective {server server' tool tool' : String} (h : separable server = true)
    (h' : separable server' = true) (heq : namespaced server tool = namespaced server' tool') :
    server = server' ∧ tool = tool' := by
  have hcut := splitOnce_separable h tool
  rw [heq, splitOnce_separable h'] at hcut
  cases hcut
  exact ⟨rfl, rfl⟩

/-! ## What a server registers -/

section Servers

variable {parse : String → Option Json}

/-- The tools a server's turn registers, as that server reports them. -/
def reported (parse : String → Option Json) (server : Server) : List RemoteTool :=
  match McpClient.connect parse server.1 server.2 with
  | .error _ => []
  | .ok client =>
    match ((listTools parse).run client).1 with
    | .error _ => []
    | .ok tools =>
      match tools.mapM (registered client.id server.1.consequence) with
      | .error _ => []
      | .ok _ => tools

/-- The client keeps its id. -/
def SameId (s t : McpClient) : Prop := t.id = s.id

theorem SameId.refl (s : McpClient) : SameId s s := rfl

theorem SameId.trans (s t u : McpClient) (h : SameId s t) (h' : SameId t u) : SameId s u :=
  Eq.trans h' h

theorem request_within (method : String) (params : Json) :
    Stateful.Within SameId (request parse method params) := request_id parse method params

theorem notify_within (method : String) (params : Json) :
    Stateful.Within SameId (notify method params) := by
  intro client
  show ((notify method params).run client).2.id = client.id
  simp only [notify, send]
  cases client.pipe.writes.head?.join <;> rfl

theorem handshake_within : Stateful.Within SameId (handshake parse) := by
  refine Stateful.Within.bind SameId.trans (request_within _ _) fun reply => ?_
  cases reply with
  | error e => exact Stateful.Within.pure SameId.refl _
  | ok _ => exact notify_within _ _

theorem listTools_within : Stateful.Within SameId (listTools parse) := by
  refine Stateful.Within.read_bind fun client => ?_
  refine Stateful.Within.bind SameId.trans (request_within _ _) (fun reply => ?_) client
  cases reply with
  | error e => exact Stateful.Within.pure SameId.refl _
  | ok reply =>
    dsimp only
    split <;> exact Stateful.Within.pure SameId.refl _

theorem connect_id {spec : ServerSpec} {process : Except String Pipe} {client : McpClient}
    (h : McpClient.connect parse spec process = .ok client) : client.id = spec.id := by
  cases process with
  | error detail => cases h
  | ok pipe =>
    have hsame := @handshake_within parse (.spawned spec pipe)
    simp only [McpClient.connect] at h
    generalize (handshake parse).run (.spawned spec pipe) = outcome at h hsame
    obtain ⟨answer, after⟩ := outcome
    cases answer with
    | error e => cases h
    | ok _ =>
      cases h
      exact hsame

theorem registered_id {server : String} {consequence : Option ConsequenceLevel} {tool : RemoteTool}
    {reg : Registered} (h : registered server consequence tool = .ok reg) :
    reg.id = namespaced server tool.name := by
  simp only [registered] at h
  split at h
  · cases h
  · cases h
    rfl

/-- The ids of a list's registrations, name by name. -/
theorem ids_of_mapM {server : String} {consequence : Option ConsequenceLevel}
    {tools : List RemoteTool} {regs : List Registered}
    (h : tools.mapM (registered server consequence) = .ok regs) :
    regs.map (·.id) = tools.map fun tool => namespaced server tool.name := by
  induction tools generalizing regs with
  | nil =>
    cases h
    rfl
  | cons tool rest ih =>
    rw [List.mapM_cons] at h
    cases hreg : registered server consequence tool with
    | error e =>
      rw [hreg] at h
      cases h
    | ok reg =>
      cases hrest : rest.mapM (registered server consequence) with
      | error e =>
        rw [hreg, hrest] at h
        cases h
      | ok more =>
        rw [hreg, hrest] at h
        cases h
        exact congrArg₂ List.cons (registered_id hreg) (ih hrest)

/-- A server's turn is nothing, or its client and a registration of each tool it reports. -/
theorem offered_cases (parse : String → Option Json) (server : Server) :
    (∃ e, offered parse server = .error e ∧ reported parse server = []) ∨
      ∃ client regs, offered parse server = .ok (client, regs) ∧ client.id = server.1.id ∧
        regs.map (·.id) = (reported parse server).map fun tool => namespaced server.1.id tool.name := by
  rw [offered, reported]
  cases hconnect : McpClient.connect parse server.1 server.2 with
  | error e => exact .inl ⟨e, rfl, rfl⟩
  | ok client =>
    have hid := connect_id hconnect
    have hsame : ((listTools parse).run client).2.id = client.id := listTools_within client
    simp only [registrations, Stateful.run_bind, Stateful.run_read]
    generalize (listTools parse).run client = listed at hsame
    obtain ⟨answer, after⟩ := listed
    cases answer with
    | error e => exact .inl ⟨e, rfl, rfl⟩
    | ok tools =>
      simp only [Stateful.run_pure]
      cases hregs : tools.mapM (registered client.id server.1.consequence) with
      | error e => exact .inl ⟨e, rfl, rfl⟩
      | ok regs =>
        have hids := ids_of_mapM hregs
        rw [hid] at hids
        exact .inr ⟨after, regs, rfl, hsame.trans hid, hids⟩

end Servers

/-! ## The fleet in use -/

section Fleet

variable {parse : String → Option Json} {hash : String → String} {σ : Type}
  {inner : ToolId → Args → Adjudication → Stateful σ ToolOutcome}

/-- The client a server's turn connects. -/
def connection (parse : String → Option Json) (server : Server) : Option McpClient :=
  (offered parse server).toOption.map Prod.fst

/-- The registrations it makes. -/
def registrationsOf (parse : String → Option Json) (server : Server) : List Registered :=
  ((offered parse server).toOption.map Prod.snd).getD []

/-- A host after these calls, of whatever tools. -/
def afterCalls (parse : String → Option Json)
    (inner : ToolId → Args → Adjudication → Stateful σ ToolOutcome) (s : McpFleet × σ)
    (calls : List (ToolId × Args × Adjudication)) : McpFleet × σ :=
  calls.foldl (fun s (tool, args, adjudication) =>
    ((McpFleet.execute parse inner tool args adjudication).run s).2) s

/-- The call is made by this server's client, the only one of that id, under this name,
and leaves the rest of the fleet alone. -/
def SentTo (parse : String → Option Json)
    (inner : ToolId → Args → Adjudication → Stateful σ ToolOutcome) (server remote : String)
    (tool : ToolId) (args : Args) (adjudication : Adjudication) (s : McpFleet × σ) : Prop :=
  ∃ before client after, s.1.clients = before ++ client :: after ∧ client.id = server ∧
    (∀ other ∈ before ++ after, other.id ≠ server) ∧
    (McpFleet.execute parse inner tool args adjudication).run s =
      let (answer, called) := (callTool parse remote
        (.object (args.entries.map fun (name, value) => (name, jsonOf value)))).run client
      (McpFleet.outcomeOf answer, { s.1 with clients := before ++ called :: after }, s.2)

/-- No two tools of the connected servers share an id, and each call of one is sent to
its server under its name, whatever was called before. -/
structure Dispatches (parse : String → Option Json) (hash : String → String)
    (servers : List Server) (pins : PinnedDescriptions) : Prop where
  distinct : ∀ a ∈ servers, ∀ b ∈ servers, ∀ tool ∈ reported parse a, ∀ tool' ∈ reported parse b,
    namespaced a.1.id tool.name = namespaced b.1.id tool'.name →
      a.1.id = b.1.id ∧ tool.name = tool'.name
  routed : ∀ server ∈ servers, ∀ tool ∈ reported parse server, ∀ {σ : Type}
    (inner : ToolId → Args → Adjudication → Stateful σ ToolOutcome) (s : σ)
    (earlier : List (ToolId × Args × Adjudication)) (args : Args) (adjudication : Adjudication),
    SentTo parse inner server.1.id tool.name (namespaced server.1.id tool.name) args adjudication
      (afterCalls parse inner ((connect parse hash servers pins).fleet, s) earlier)

theorem foldl_connected (servers : List Server) (c : Connecting) :
    (servers.foldl (connectOne parse hash) c).clients =
        c.clients ++ servers.filterMap (connection parse) ∧
      (servers.foldl (connectOne parse hash) c).registrations =
        c.registrations ++ servers.flatMap (registrationsOf parse) := by
  induction servers generalizing c with
  | nil => simp
  | cons server rest ih =>
    obtain ⟨hclients, hregs⟩ := ih (connectOne parse hash c server)
    rw [List.foldl_cons, hclients, hregs, List.filterMap_cons, List.flatMap_cons]
    cases hoffered : offered parse server with
    | error e =>
      rw [connectOne_error hoffered, connection, registrationsOf, hoffered]
      exact ⟨rfl, rfl⟩
    | ok answer =>
      obtain ⟨client, regs⟩ := answer
      rw [connectOne_ok hoffered, connection, registrationsOf, hoffered]
      simp [Except.toOption]

/-- The fleet's clients are the connected servers'. -/
theorem connect_clients (servers : List Server) (pins : PinnedDescriptions) :
    (connect parse hash servers pins).fleet.clients = servers.filterMap (connection parse) :=
  (foldl_connected servers (.begin pins)).1

theorem connection_id {server : Server} {client : McpClient}
    (h : connection parse server = some client) : client.id = server.1.id := by
  rcases offered_cases parse server with ⟨e, hoffered, -⟩ | ⟨client', regs, hoffered, hid, -⟩
  · rw [connection, hoffered] at h
    cases h
  · rw [connection, hoffered] at h
    cases h
    exact hid

/-- Of distinct servers the connections are distinct. -/
theorem nodup_connections {servers : List Server} (h : (servers.map (·.1.id)).Nodup) :
    ((servers.filterMap (connection parse)).map (·.id)).Nodup := by
  induction servers with
  | nil => exact .nil
  | cons server rest ih =>
    obtain ⟨hnew, hrest⟩ := List.nodup_cons.mp h
    rw [List.filterMap_cons]
    cases hconnection : connection parse server with
    | none => exact ih hrest
    | some client =>
      refine List.nodup_cons.mpr ⟨fun hmem => hnew ?_, ih hrest⟩
      obtain ⟨other, hother, hid⟩ := List.mem_map.mp hmem
      obtain ⟨server', hserver', hconnection'⟩ := List.mem_filterMap.mp hother
      refine List.mem_map.mpr ⟨server', hserver', ?_⟩
      exact (connection_id hconnection').symm.trans (hid.trans (connection_id hconnection))

/-- A tool a server reported is registered, and its server is connected. -/
theorem served_of_reported {servers : List Server} {server : Server} {tool : RemoteTool}
    (pins : PinnedDescriptions) (hserver : server ∈ servers) (htool : tool ∈ reported parse server) :
    (connect parse hash servers pins).fleet.serves (namespaced server.1.id tool.name) = true ∧
      server.1.id ∈ (connect parse hash servers pins).fleet.clients.map (·.id) := by
  rcases offered_cases parse server with ⟨e, -, hnone⟩ | ⟨client, regs, hoffered, hid, hregs⟩
  · rw [hnone] at htool
    cases htool
  · constructor
    · have hmem : namespaced server.1.id tool.name ∈ regs.map (·.id) := by
        rw [hregs]
        exact List.mem_map_of_mem htool
      obtain ⟨reg, hreg, hregId⟩ := List.mem_map.mp hmem
      refine List.any_eq_true.mpr ⟨reg.toToolRegistration, List.mem_map_of_mem ?_, by simp [hregId]⟩
      rw [connect, (foldl_connected servers (.begin pins)).2]
      refine List.mem_append_right _ (List.mem_flatMap.mpr ⟨server, hserver, ?_⟩)
      rw [registrationsOf, hoffered]
      exact hreg
    · rw [connect_clients]
      refine List.mem_map.mpr ⟨client, List.mem_filterMap.mpr ⟨server, hserver, ?_⟩, hid⟩
      rw [connection, hoffered]
      rfl

end Fleet

/-! ## Calls -/

section Calls

variable {σ : Type} {p q : McpClient → Bool} {α : Type} {f : Stateful McpClient α}

theorem onFirst_append {before after : List McpClient} {client : McpClient}
    (hbefore : ∀ c ∈ before, p c = false) (hclient : p client = true) :
    onFirst p f (before ++ client :: after) =
      (some (f.run client).1, before ++ (f.run client).2 :: after) := by
  induction before with
  | nil => simp [onFirst, hclient]
  | cons first before ih =>
    have hrest := ih fun c hc => hbefore c (List.mem_cons_of_mem _ hc)
    simp [onFirst, hbefore first List.mem_cons_self, hrest]

/-- What is seen of a client and kept by `f` is kept in the list. -/
theorem map_onFirst {β : Type} {see : McpClient → β} (keep : ∀ c, see (f.run c).2 = see c)
    (clients : List McpClient) : (onFirst p f clients).2.map see = clients.map see := by
  induction clients with
  | nil => rfl
  | cons client rest ih =>
    rw [onFirst]
    split
    · exact congrArg (· :: rest.map see) (keep client)
    · exact congrArg (see client :: ·) ih

/-- The clients `f` is never run on are as they were. -/
theorem filter_onFirst (hpq : ∀ c, p c = true → q c = false)
    (keep : ∀ c, q (f.run c).2 = q c) (clients : List McpClient) :
    (onFirst p f clients).2.filter q = clients.filter q := by
  induction clients with
  | nil => rfl
  | cons client rest ih =>
    rw [onFirst]
    split
    · rename_i hp
      have hq := hpq client hp
      simp [hq, (keep client).trans hq]
    · simp only [List.filter_cons, ih]

theorem callTool_snd (parse : String → Option Json) (remote : String) (arguments : Json)
    (client : McpClient) :
    ((callTool parse remote arguments).run client).2 =
      ((request parse "tools/call"
        (.object [("name", .string remote), ("arguments", arguments)])).run client).2 := by
  simp only [callTool, Stateful.run_bind]
  cases ((request parse "tools/call" _).run client).1 <;> rfl

theorem callTool_id (parse : String → Option Json) (remote : String) (arguments : Json)
    (client : McpClient) : ((callTool parse remote arguments).run client).2.id = client.id := by
  rw [callTool_snd, request_id]

variable {parse : String → Option Json}
  {inner : ToolId → Args → Adjudication → Stateful σ ToolOutcome}

/-- A call as it is made, its id once cut. -/
theorem execute_split {fleet : McpFleet} {tool : ToolId} {server remote : String}
    (hserves : fleet.serves tool = true) (hsplit : splitOnce tool.text "__" = some (server, remote))
    (args : Args) (adjudication : Adjudication) (s : σ) :
    (McpFleet.execute parse inner tool args adjudication).run (fleet, s) =
      match onFirst (·.id = server) (callTool parse remote
        (.object (args.entries.map fun (name, value) => (name, jsonOf value)))) fleet.clients with
      | (none, _) => (refused ("the MCP server `" ++ server ++ "` is not connected"), fleet, s)
      | (some answer, clients) => (McpFleet.outcomeOf answer, { fleet with clients }, s) := by
  simp only [McpFleet.execute, hserves, if_true, McpFleet.call, hsplit]
  split <;> simp_all

/-- A call keeps the registrations and the clients' ids. -/
theorem execute_frame (tool : ToolId) (args : Args) (adjudication : Adjudication)
    (s : McpFleet × σ) :
    ((McpFleet.execute parse inner tool args adjudication).run s).2.1.registrations =
        s.1.registrations ∧
      ((McpFleet.execute parse inner tool args adjudication).run s).2.1.clients.map (·.id) =
        s.1.clients.map (·.id) := by
  obtain ⟨fleet, s⟩ := s
  cases hserves : fleet.serves tool with
  | false =>
    simp only [McpFleet.execute, hserves]
    exact ⟨rfl, rfl⟩
  | true =>
    cases hsplit : splitOnce tool.text "__" with
    | none =>
      simp only [McpFleet.execute, hserves, if_true, McpFleet.call, hsplit]
      exact ⟨rfl, rfl⟩
    | some parts =>
      rw [execute_split hserves hsplit]
      have hids := @map_onFirst (fun client => client.id = parts.1) _ _ _ McpClient.id
        (callTool_id parse parts.2
          (.object (args.entries.map fun (name, value) => (name, jsonOf value)))) fleet.clients
      split
      · exact ⟨rfl, rfl⟩
      · rename_i answer clients heq
        rw [heq] at hids
        exact ⟨rfl, hids⟩

theorem afterCalls_frame (calls : List (ToolId × Args × Adjudication)) (s : McpFleet × σ) :
    (afterCalls parse inner s calls).1.registrations = s.1.registrations ∧
      (afterCalls parse inner s calls).1.clients.map (·.id) = s.1.clients.map (·.id) := by
  induction calls generalizing s with
  | nil => exact ⟨rfl, rfl⟩
  | cons call rest ih =>
    obtain ⟨tool, args, adjudication⟩ := call
    obtain ⟨hregs, hids⟩ := @execute_frame σ parse inner tool args adjudication s
    have hrest := ih ((McpFleet.execute parse inner tool args adjudication).run s).2
    exact ⟨hrest.1.trans hregs, hrest.2.trans hids⟩

/-- A call of a separable server's tool is sent to it, where it is connected once. -/
theorem sentTo_of_separable {fleet : McpFleet} {server tool : String}
    (hserves : fleet.serves (namespaced server tool) = true) (hsep : separable server = true)
    (hmem : server ∈ fleet.clients.map (·.id)) (hnodup : (fleet.clients.map (·.id)).Nodup)
    (args : Args) (adjudication : Adjudication) (s : σ) :
    SentTo parse inner server tool (namespaced server tool) args adjudication (fleet, s) := by
  obtain ⟨client, hclient, hid⟩ := List.mem_map.mp hmem
  obtain ⟨before, after, hsplit⟩ := List.append_of_mem hclient
  rw [hsplit, List.map_append, List.map_cons] at hnodup
  have hothers : ∀ other ∈ before ++ after, other.id ≠ server := by
    intro other hother heq
    have hall := List.nodup_middle.mp hnodup
    refine (List.nodup_cons.mp hall).1 ?_
    rw [hid, ← heq, ← List.map_append]
    exact List.mem_map_of_mem hother
  refine ⟨before, client, after, hsplit, hid, hothers, ?_⟩
  rw [execute_split hserves (splitOnce_separable hsep tool), hsplit, onFirst_append]
  · intro other hother
    simpa using hothers other (List.mem_append_left _ hother)
  · simpa using hid

/-- A call of any other's tool leaves its server alone. -/
theorem not_sentTo_of_inseparable {fleet : McpFleet} {server tool : String}
    (hserves : fleet.serves (namespaced server tool) = true) (hsep : separable server = false)
    (args : Args) (adjudication : Adjudication) (s : σ) :
    ¬ SentTo parse inner server tool (namespaced server tool) args adjudication (fleet, s) := by
  obtain ⟨other, rest, hsplit, hne⟩ := splitOnce_inseparable hsep tool
  rintro ⟨before, client, after, hclients, hid, -, hrun⟩
  rw [execute_split hserves hsplit] at hrun
  have hkept := filter_onFirst (p := fun c => c.id = other) (q := fun c => c.id = server)
    (f := callTool parse rest
      (.object (args.entries.map fun (name, value) => (name, jsonOf value))))
    (fun c hc => by simpa using fun h => hne ((of_decide_eq_true hc).symm.trans h))
    (fun c => by rw [callTool_id]) fleet.clients
  have hcalled : ∀ clients, clients.filter (fun c => c.id = server) =
      fleet.clients.filter (fun c => c.id = server) →
        clients = before ++ ((callTool parse tool
          (.object (args.entries.map fun (name, value) => (name, jsonOf value)))).run client).2 :: after →
        False := by
    rintro clients hfilter rfl
    have hid' := callTool_id parse tool
      (.object (args.entries.map fun (name, value) => (name, jsonOf value))) client
    rw [hclients] at hfilter
    simp only [List.filter_append, List.filter_cons, hid'.trans hid, hid, decide_true, if_true,
      List.append_cancel_left_eq, List.cons.injEq, and_true] at hfilter
    have hnext := congrArg McpClient.nextId hfilter
    rw [callTool_snd, request_nextId] at hnext
    omega
  split at hrun
  · exact hcalled fleet.clients rfl (congrArg (fun r => r.2.1.clients) hrun)
  · rename_i answer clients heq
    rw [heq] at hkept
    exact hcalled clients hkept (congrArg (fun r => r.2.1.clients) hrun)

end Calls

/-! ## Every call, of every registered tool -/

/-- An adjudication, for a call of any tool. -/
def allowed (tool : ToolId) : Adjudication :=
  { decision :=
      { id := 0, tool, actionClass := ⟨tool, 0, ""⟩, outcome := .allowed
        blastRadius := ⟨"", "", true, none⟩, taint := .empty, reasons := [] }
    handles := .empty }

/-- **When a call goes to the tool that registered it.** Of servers with distinct ids,
exactly when those that register a tool are separable. -/
theorem dispatches_iff (parse : String → Option Json) (hash : String → String)
    (servers : List Server) (pins : PinnedDescriptions) (hids : (servers.map (·.1.id)).Nodup) :
    Dispatches parse hash servers pins ↔
      ∀ server ∈ servers, reported parse server ≠ [] → separable server.1.id = true := by
  constructor
  · intro h server hserver hsome
    obtain ⟨tool, htool⟩ := List.exists_mem_of_ne_nil _ hsome
    obtain ⟨hserves, -⟩ := @served_of_reported parse hash _ _ _ pins hserver htool
    cases hsep : separable server.1.id with
    | true => rfl
    | false =>
      have hsent := h.routed server hserver tool htool (fun _ _ _ => pure (refused "")) () [] .empty
        (allowed (namespaced server.1.id tool.name))
      exact absurd hsent (not_sentTo_of_inseparable hserves hsep _ _ _)
  · intro hsep
    have hsep' : ∀ server ∈ servers, ∀ tool ∈ reported parse server, separable server.1.id = true :=
      fun server hserver tool htool => hsep server hserver (List.ne_nil_of_mem htool)
    refine ⟨fun a ha b hb tool htool tool' htool' heq => ?_, ?_⟩
    · exact namespaced_injective (hsep' a ha tool htool) (hsep' b hb tool' htool') heq
    · intro server hserver tool htool σ inner s earlier args adjudication
      obtain ⟨hserves, hmem⟩ := @served_of_reported parse hash _ _ _ pins hserver htool
      have hnodup := @nodup_connections parse _ hids
      rw [← @connect_clients parse hash servers pins] at hnodup
      obtain ⟨hregs, hclients⟩ := @afterCalls_frame _ parse inner earlier
        ((connect parse hash servers pins).fleet, s)
      rw [← hclients] at hmem hnodup
      refine sentTo_of_separable ?_ (hsep' server hserver tool htool) hmem hnodup args adjudication _
      rw [McpFleet.serves, hregs]
      exact hserves

/-! ## Two servers an underscore apart -/

namespace Underscores

/-- The lines of a server: its handshake, and a list of one tool. -/
def readyLine : String := "\x7b\"id\":1,\"result\":\x7b\x7d\x7d"

def scoredLine : String := "\x7b\"id\":2,\"result\":\x7b\"tools\":[\x7b\"name\":\"_x\"\x7d]\x7d\x7d"

def plainLine : String := "\x7b\"id\":2,\"result\":\x7b\"tools\":[\x7b\"name\":\"x\"\x7d]\x7d\x7d"

def toolsReply (name : String) : Json :=
  .object [("id", .integer 2),
    ("result", .object [("tools", .array [.object [("name", .string name)]])])]

/-- The parser, on these lines. -/
def parse (text : String) : Option Json :=
  if text = readyLine then some (.object [("id", .integer 1), ("result", .object [])])
  else if text = scoredLine then some (toolsReply "_x")
  else if text = plainLine then some (toolsReply "x")
  else none

def server (id line : String) : Server :=
  (⟨id, "mcp", [], none⟩, .ok ⟨(readyLine ++ "\n" ++ line ++ "\n").toByteArray.data.toList, none, [], []⟩)

/-- What two servers write, one of them with an underscore at its id's end. -/
def pair : List Server := [server "a" scoredLine, server "a_" plainLine]

end Underscores

theorem dispatches_plain :
    Dispatches Underscores.parse id [Underscores.server "a" Underscores.plainLine] .new ↔
      ∀ server ∈ [Underscores.server "a" Underscores.plainLine],
        reported Underscores.parse server ≠ [] → separable server.1.id = true :=
  dispatches_iff Underscores.parse id [Underscores.server "a" Underscores.plainLine] .new
    (by simp)

/-- `_x` of `a` and `x` of `a_` are one id. -/
theorem ids_shared :
    ¬ ∀ (parse : String → Option Json) (hash : String → String) (servers : List Server)
      (pins : PinnedDescriptions), (servers.map (·.1.id)).Nodup →
        Dispatches parse hash servers pins := by
  intro hall
  have h := hall Underscores.parse id Underscores.pair .new (by decide)
  have hscored : (reported Underscores.parse (Underscores.server "a" Underscores.scoredLine)).map
      RemoteTool.name = ["_x"] := by decide
  have hplain : (reported Underscores.parse (Underscores.server "a_" Underscores.plainLine)).map
      RemoteTool.name = ["x"] := by decide
  obtain ⟨scored, hscoredMem, hscoredName⟩ : ∃ tool ∈ reported Underscores.parse
      (Underscores.server "a" Underscores.scoredLine), tool.name = "_x" :=
    List.mem_map.mp (by rw [hscored]; exact List.mem_singleton_self _)
  obtain ⟨plain, hplainMem, hplainName⟩ : ∃ tool ∈ reported Underscores.parse
      (Underscores.server "a_" Underscores.plainLine), tool.name = "x" :=
    List.mem_map.mp (by rw [hplain]; exact List.mem_singleton_self _)
  have heq := h.distinct _ List.mem_cons_self _ (List.mem_cons_of_mem _ List.mem_cons_self) scored
    hscoredMem plain hplainMem (by rw [hscoredName, hplainName]; rfl)
  exact absurd heq.1 (by decide)

end MarloweAgent.Mcp
