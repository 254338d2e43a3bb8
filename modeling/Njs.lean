import Njs.SharedDict.Reload
import Njs.SharedDict.Saves
import Njs.SharedDict.StateNumbers
import Njs.RbTree.Search
import Njs.RbTree.Destruction
import Njs.Json.Exact
import Njs.Json.RoundTrip
import Njs.Fetch.RequestRuns
import Njs.Scope.ConstantRuns
import Njs.WebCrypto.Usages
import Njs.WebCrypto.Counter
import Njs.Numbers.Conversions
import Njs.Object.Collecting
import Njs.Object.Order
import Njs.Object.Frame
import Njs.Promises.CombinatorCall
import Njs.Arrays.Runs
import Njs.Indices.ArrayMethods
import Njs.Query.Engines
import Njs.Sorting.Sort
import Njs.Decoding.CharCodes
import Njs.HttpClient.ChunkedBody
import Njs.HttpClient.KeepaliveRuns
import Njs.RequestForm.Multipart
import Njs.SharedDict.ExpiryOrder
import Njs.SharedDict.LoadedEntries
import Njs.HttpExchange.Failover
import Njs.Strings.ToNumber
import Njs.Strings.MatchMultiple
import Njs.Strings.Atob
import Njs.Strings.Replace
import Njs.Strings.UriDecoding
import Njs.Indices.KeyOrder
import Njs.Indices.LengthSet
import Njs.Sorting.Bytes
import Njs.Date.Iso
import Njs.CallStack.Accounting
import Njs.Regexp.SymbolSplit
import Njs.TypedArrays.Runs
