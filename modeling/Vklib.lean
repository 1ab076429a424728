import Vklib.Base.Outcome
import Vklib.Base.CString
import Vklib.Base.Number
import Vklib.Base.Buffer
import Vklib.Base.Pieces
import Vklib.Lua.Value
import Vklib.Lua.Convert
import Vklib.Bson.Document
import Vklib.Bson.Writer
import Vklib.Bson.Compare
import Vklib.Bson.Data
import Vklib.Bson.WellFormed
import Vklib.Bson.IterSpec
import Vklib.Bson.IterData
import Vklib.Bson.Reader
import Vklib.Bson.Utf8
import Vklib.Bson.Validate
import Vklib.Bson.ValidateSpec
import Vklib.Base.PowerOfTwo
import Vklib.Bson.Grow
import Vklib.Bson.GrowSpec
import Vklib.Bson.Build
import Vklib.Mongo.Common
import Vklib.Mongo.Encode
import Vklib.Mongo.Load
import Vklib.Mongo.Tree
import Vklib.Mongo.Write
import Vklib.Mongo.EncodeSpec
import Vklib.Mongo.Append
import Vklib.Mongo.Encoded
import Vklib.Mongo.Loss
import Vklib.Bson.Oid
import Vklib.Mongo.ObjectID
import Vklib.Mongo.Cursor
import Vklib.Mongo.Delivery
import Vklib.Mongo.Cycles
import Vklib.Mongo.BsonType
import Vklib.Mongo.Decode
import Vklib.Mongo.Open
import Vklib.Mongo.Slots
import Vklib.Mongo.DecodeSpec
import Vklib.Mongo.RoundTrip
import Vklib.Mongo.Reencode
import Vklib.Mongo.TypedValue
import Vklib.Mongo.Embed
import Vklib.Mongo.Accepted
import Vklib.Mongo.Find
import Vklib.Mongo.DecodeBytes
import Vklib.Mongo.Consistent
import Vklib.Mongo.ErrorStack
import Vklib.Mongo.ErrorPath
import Vklib.Posix.FileSystem
import Vklib.Posix.Walk
import Vklib.Posix.Syscalls
import Vklib.Fs.Functions
import Vklib.Fs.Observers
import Vklib.Fs.CreateDir
import Vklib.Fs.CreateFile
import Vklib.Fs.Complete
import Vklib.Fs.Stuck
import Vklib.Fs.Contents
import Vklib.Fs.Removal
import Vklib.Fs.Runs
import Vklib.Base.Memory
import Vklib.Base.StringFunctions
import Vklib.Requests.Header
import Vklib.Requests.Response
import Vklib.Requests.Lines
import Vklib.Requests.HttpResponse
import Vklib.Requests.Independence
import Vklib.Requests.Url
import Vklib.Requests.Request
import Vklib.Requests.Receive
import Vklib.Requests.HeaderLine
import Vklib.Requests.HeaderTable
import Vklib.Requests.Buffers
import Vklib.Lua.Api
import Vklib.Handle.Util
import Vklib.Handle.Functions
import Vklib.Handle.Process
import Vklib.Handle.Effect
import Vklib.Handle.Invariant
import Vklib.Handle.Environment
import Vklib.Handle.Destruction
import Vklib.Sqlite.Exec
import Vklib.Sqlite.Results
import Vklib.GridFS.Read
import Vklib.Base.Attempt
import Vklib.Base.Paged
import Vklib.GridFS.Page
import Vklib.GridFS.File
import Vklib.GridFS.FileSpec
import Vklib.GridFS.Stream
