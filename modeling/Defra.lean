import Defra.Query.IndexSelection
import Defra.Theorems.Batch.Sign
import Defra.Theorems.Bitswap.Client
import Defra.Theorems.Bitswap.TaskQueue
import Defra.Theorems.Field.Critical
import Defra.Theorems.Field.Past
import Defra.Theorems.Heads.Document
import Defra.Theorems.History.Pages
import Defra.Theorems.Index.Cursor
import Defra.Theorems.Index.JsonLeaf
import Defra.Theorems.Index.Reachable
import Defra.Theorems.Json.Converge
import Defra.Theorems.Json.LocalWrite
import Defra.Theorems.Json.PathEdits
import Defra.Theorems.Lens.Migrate
import Defra.Theorems.Merge.Operator
import Defra.Theorems.Nac.Restart
import Defra.Theorems.Pending.Obligations
import Defra.Theorems.Pending.Slots
import Defra.Theorems.Push.Bytes
import Defra.Theorems.Push.Current
import Defra.Theorems.Push.Fair
import Defra.Theorems.Query.Like
import Defra.Theorems.Query.Number
import Defra.Theorems.Query.OrderBy
import Defra.Theorems.Stored.Layout
import Defra.Theorems.Stored.Order
import Defra.Theorems.Stored.Replay
import Defra.Theorems.Text.Critical
import Defra.Theorems.Text.Flat
import Defra.Theorems.Zanzibar.Explain
import Defra.Theorems.Zanzibar.Owner
import Defra.Theorems.Zanzibar.Store
